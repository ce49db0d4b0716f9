import CppCore.Utils.BufferArea

/-!
# The three readers of strings

One reader points to the next string, one copies it into new memory and one into memory of the
caller.  They should find the same string and move behind its terminator.  The first does.  The
second looks for the terminator in the whole data area and moves whether it finds one or not.
The third stops at the terminator, which it does not count, and stores a terminator in front of
an array of no bytes.

## Main definitions

* `Buffer.unread`, `Buffer.nextString` — the valid bytes that are left, and the string in them.
* `StringReadersAgree` — the three readers do the same.
* `stringReadersAgree_iff` — they do if there is a string, which is cut off.
-/

namespace CppCore.Utils

open Lib TracedBuffer

/-! ## The next string -/

namespace Buffer

/-- The valid bytes from the read position on. -/
def unread (b : Buffer) : List UInt8 := (b.contents.take b.m_validBytes).drop b.m_readPos

/-- What stands before the first NUL byte of them, if there is one. -/
def nextString (b : Buffer) : Option (List UInt8) :=
  if 0 ∈ b.unread then some (b.unread.takeWhile (· ≠ 0)) else none

/-- The position behind the terminator of the next string, or the read position. -/
def afterString (b : Buffer) : ℕ :=
  match b.nextString with
  | some string => b.m_readPos + string.length + 1
  | none => b.m_readPos

/-- The read position is not past the valid bytes, which have values. -/
structure Readable (b : Buffer) : Prop where
  sized : b.Sized
  word : b.m_dataLength < 2 ^ 32
  read : b.m_readPos ≤ b.m_validBytes
  valid : b.m_validBytes ≤ b.m_dataLength
  defined : b.Defined

end Buffer

/-- The readers find the next string, move behind it, look at valid bytes and, given `n` bytes to
store it in, store no more.  The last one may cut off the string. -/
structure StringReadersAgree (b : Buffer) (n : ℕ) : Prop where
  /-- The string is what the pointer denotes. -/
  getNextCharString : ∃ mem t, b.traced.getNextCharString = .ok (mem, t) ∧
    mem.isSome = b.nextString.isSome ∧
    (∀ string ∈ b.nextString, ∀ cells ∈ mem, string ++ [0] <+: cells) ∧
    t.m_readPos = b.afterString ∧ Below t.reads b.m_validBytes
  /-- The string is what was copied. -/
  getNextCharStringAlloc : ∃ t,
    b.traced.getNextCharStringAlloc = .ok (b.nextString.map (· ++ [0]), t) ∧
    t.m_readPos = b.afterString ∧ Below t.reads b.m_validBytes
  /-- The string is what was stored, and its bytes are counted. -/
  readNextCharString : ∃ count dst t, b.traced.readNextCharString n = .ok ((count, dst), t) ∧
    (∀ string ∈ b.nextString, string.length < n → count = string.length + 1 ∧
      dst = string ++ [0] ∧ t.m_readPos = b.afterString) ∧
    dst.length ≤ n ∧ Below t.reads b.m_validBytes

/-! ## Scans -/

theorem takeThrough_nul {string : List UInt8} (hnul : (0 : UInt8) ∉ string) (rest : List UInt8) :
    takeThrough (fun byte => byte = 0) (string ++ 0 :: rest) = string ++ [0] := by
  induction string with
  | nil => simp [takeThrough]
  | cons byte string ih =>
    rw [List.mem_cons, not_or] at hnul
    simp [takeThrough, Ne.symm hnul.1, ih hnul.2]

theorem takeThrough_of_notMem {bytes : List UInt8} (hnul : (0 : UInt8) ∉ bytes) :
    takeThrough (fun byte => byte = 0) bytes = bytes := by
  induction bytes with
  | nil => rfl
  | cons byte bytes ih =>
    rw [List.mem_cons, not_or] at hnul
    simp [takeThrough, Ne.symm hnul.1, ih hnul.2]

theorem takeWhile_nul {string : List UInt8} (hnul : (0 : UInt8) ∉ string) (rest : List UInt8) :
    (string ++ 0 :: rest).takeWhile (· ≠ 0) = string := by
  induction string with
  | nil => simp
  | cons byte string ih =>
    rw [List.mem_cons, not_or] at hnul
    simpa [Ne.symm hnul.1] using ih hnul.2

theorem idxOf_nul {string : List UInt8} (hnul : (0 : UInt8) ∉ string) (rest : List UInt8) :
    (string ++ 0 :: rest).idxOf 0 = string.length := by
  rw [List.idxOf_append_of_notMem hnul]
  simp

namespace Buffer

variable {b : Buffer} {string : List UInt8}

theorem nextString_eq_some :
    b.nextString = some string ↔ 0 ∉ string ∧ ∃ rest, b.unread = string ++ 0 :: rest := by
  rw [nextString]
  constructor
  · intro h
    split at h
    · rename_i hmem
      obtain rfl := Option.some.inj h
      obtain ⟨rest, hrest⟩ := takeWhile_append_nul_prefix hmem
      rw [List.append_assoc] at hrest
      exact ⟨fun h => by simpa using List.mem_takeWhile_imp h, rest, hrest.symm⟩
    · cases h
  · rintro ⟨hnul, rest, hrest⟩
    rw [hrest, if_pos (by simp), takeWhile_nul hnul]

theorem nextString_eq_none : b.nextString = none ↔ 0 ∉ b.unread := by
  simp [nextString]

namespace Readable

theorem length_unread (hb : b.Readable) : b.unread.length = b.m_validBytes - b.m_readPos := by
  rw [unread, List.length_drop, List.length_take_of_le hb.defined]

/-- The unread bytes as cells. -/
theorem map_unread (hb : b.Readable) :
    b.unread.map some = (b.area.drop b.m_readPos).take (b.m_validBytes - b.m_readPos) := by
  obtain ⟨tail, htail⟩ := map_initialized_isPrefix b.area
  change b.contents.map some ++ tail = b.area at htail
  have hdef : b.m_validBytes ≤ (b.contents.map some).length := by
    rw [List.length_map]
    exact hb.defined
  rw [← List.drop_take, ← htail, List.take_append_of_le_length hdef, unread, List.map_drop,
    List.map_take]

theorem unread_isPrefix (hb : b.Readable) : b.unread.map some <+: b.area.drop b.m_readPos := by
  rw [hb.map_unread]
  exact List.take_prefix _ _

/-- The loop over the unread bytes. -/
theorem readUntil (hb : b.Readable) {n : ℕ} (hn : n ≤ b.unread.length ∨ 0 ∈ b.unread) :
    b.readUntil (fun byte => byte = 0) b.m_readPos n =
      .ok (takeThrough (fun byte => byte = 0) (b.unread.take n)) := by
  have hread := hb.read
  have hvalid := hb.valid
  have hword := hb.word
  have hlen := hb.length_unread
  exact readUntil_of_prefix (by omega) hb.unread_isPrefix (hn.imp_right fun h => by simpa using h)

/-- The loop that ends among the valid bytes has found a NUL byte there. -/
theorem mem_of_readUntil (hb : b.Readable) {n : ℕ} {bytes : List UInt8}
    (hread : b.readUntil (fun byte => byte = 0) b.m_readPos n = .ok bytes)
    (hn : b.unread.length < n) (hlen : bytes.length ≤ b.unread.length) : 0 ∈ b.unread := by
  have hword : b.area.length < 2 ^ 32 := by
    rw [show b.area.length = b.m_dataLength from hb.sized]
    exact hb.word
  obtain ⟨hbytes, hend⟩ := prefix_of_readUntil hword hread
  obtain hall | hstop := hend
  · omega
  · have hsub : bytes.map some <+: b.unread.map some :=
      List.prefix_of_prefix_length_le hbytes hb.unread_isPrefix (by simpa using hlen)
    have hmem : (0 : UInt8) ∈ bytes := by simpa using hstop
    have := hsub.subset (List.mem_map_of_mem hmem)
    simpa using this

end Readable

end Buffer

/-! ## The readers -/

section Readers

variable {t : TracedBuffer} {string : List UInt8}

/-- The number of bytes left, as the readers compute it. -/
private theorem left_eq (ht : t.Readable) :
    sub32 t.m_validBytes t.m_readPos = t.unread.length := by
  have hvalid := ht.valid
  have hword := ht.word
  rw [sub32_of_le ht.read (by omega), ht.length_unread]

/-- A buffer with a string in it has memory. -/
private theorem exists_cells (ht : t.Readable) (hne : t.unread ≠ []) :
    ∃ cells, t.m_data = some cells := by
  apply Option.ne_none_iff_exists'.mp
  intro hnone
  have hle := ht.unread_isPrefix.length_le
  have hpos := List.length_pos_of_ne_nil hne
  simp only [Buffer.area, hnone, Option.getD_none, List.drop_nil, List.length_map,
    List.length_nil] at hle
  omega

private theorem getNextCharString_eq (ht : t.Readable) (hs : t.nextString = some string) :
    ∃ mem, string ++ [0] <+: mem ∧ t.getNextCharString = .ok (some mem, { t with
      m_readPos := t.m_readPos + string.length + 1
      reads := (t.m_readPos, t.m_validBytes - t.m_readPos) :: t.reads }) := by
  obtain ⟨hnul, rest, hrest⟩ := Buffer.nextString_eq_some.mp hs
  have hlen := ht.length_unread
  obtain ⟨cells, hcells⟩ := exists_cells ht (by simp [hrest])
  have hprefix := ht.unread_isPrefix
  rw [Buffer.area, hcells, Option.getD_some] at hprefix
  have hmem := Buffer.prefix_initialized hprefix
  have hrange : (initialized (cells.drop t.m_readPos)).take (t.m_validBytes - t.m_readPos) =
      string ++ 0 :: rest := by
    rw [← hlen, ← hrest]
    exact (List.prefix_iff_eq_take.mp hmem).symm
  have hlt : t.m_readPos < t.m_validBytes := by
    rw [hrest, List.length_append, List.length_cons] at hlen
    omega
  have hread : t.toBuffer.getNextCharString = .ok (some (initialized (cells.drop t.m_readPos)),
      { t.toBuffer with m_readPos := t.m_readPos + string.length + 1 }) := by
    rw [Buffer.getNextCharString, if_pos hlt, hcells, deref, Exec.ok_bind]
    simp only [hrange, idxOf_nul hnul, List.mem_append, List.mem_cons, true_or, or_true, if_true,
      hcells]
  refine ⟨initialized (cells.drop t.m_readPos), ?_, ?_⟩
  · rw [hrest] at hmem
    exact List.IsPrefix.trans ⟨rest, by simp⟩ hmem
  · simp only [TracedBuffer.getNextCharString, hread, Exec.ok_bind]

private theorem getNextCharStringAlloc_eq (ht : t.Readable) (hs : t.nextString = some string) :
    t.getNextCharStringAlloc = .ok (some (string ++ [0]), { t with
      m_readPos := t.m_readPos + string.length + 1
      reads := (t.m_readPos, string.length + 1) :: t.reads }) := by
  obtain ⟨hnul, rest, hrest⟩ := Buffer.nextString_eq_some.mp hs
  have hread := ht.read
  have hvalid := ht.valid
  have hword := ht.word
  have hlen := ht.length_unread
  obtain ⟨cells, hcells⟩ := exists_cells ht (by simp [hrest])
  have hsized : cells.length = t.m_dataLength := by simpa [Buffer.Sized, hcells] using ht.sized
  have hloop := ht.readUntil (n := cells.length - t.m_readPos + 1) (.inr (by simp [hrest]))
  rw [List.take_of_length_le (by omega), hrest, takeThrough_nul hnul] at hloop
  rw [hrest, List.length_append, List.length_cons] at hlen
  have hleft : string.length + 1 ≤ sub32 t.m_validBytes t.m_readPos := by
    rw [sub32_of_le hread (by omega)]
    omega
  have hpos : add32 t.m_readPos (string ++ [0]).length = t.m_readPos + string.length + 1 := by
    rw [List.length_append, List.length_singleton, add32_of_lt (by omega), Nat.add_assoc]
  simp only [TracedBuffer.getNextCharStringAlloc, hcells, hloop, Exec.ok_bind,
    hpos]
  simp [Nat.not_lt.mpr hleft]

/-- With a NUL byte among the first `n`, the copy stops in front of it. -/
private theorem readNextCharString_of_lt (ht : t.Readable) (hs : t.nextString = some string)
    {n : ℕ} (hn : string.length < n) :
    t.readNextCharString n = .ok ((int32 string.length, string ++ [0]), { t with
      m_readPos := t.m_readPos + string.length
      reads := (t.m_readPos, string.length + 1) :: t.reads }) := by
  obtain ⟨hnul, rest, hrest⟩ := Buffer.nextString_eq_some.mp hs
  have hread := ht.read
  have hvalid := ht.valid
  have hword := ht.word
  have hlen := ht.length_unread
  have hleft := left_eq ht
  rw [hrest, List.length_append, List.length_cons] at hlen hleft
  -- the number of bytes to look at, which is cut to those left
  generalize hm : (if sub32 t.m_validBytes t.m_readPos < n then sub32 t.m_validBytes t.m_readPos
    else n) = m
  have hlt : string.length < m := by
    rw [← hm, hleft]
    split <;> omega
  have htake : t.unread.take m = string ++ 0 :: rest.take (m - string.length - 1) := by
    rw [hrest, List.take_append, List.take_of_length_le hlt.le]
    congr 1
    rw [show m - string.length = m - string.length - 1 + 1 by omega, List.take_succ_cons]
    simp
  have hloop := ht.readUntil (n := m) (.inr (by simp [hrest]))
  rw [htake, takeThrough_nul hnul] at hloop
  have hidx : (string ++ [0]).idxOf 0 = string.length := idxOf_nul hnul []
  simp only [TracedBuffer.readNextCharString, hm, hloop, Exec.ok_bind, hidx,
    List.mem_append, List.mem_singleton, or_true, if_true, List.length_append,
    List.length_singleton, add32_of_lt (show t.m_readPos + string.length < 2 ^ 32 by omega)]

/-- Otherwise `n` bytes are copied, and the last one is written over. -/
private theorem readNextCharString_of_le (ht : t.Readable) (hs : t.nextString = some string)
    {n : ℕ} (hpos : 0 < n) (hn : n ≤ string.length) :
    t.readNextCharString n = .ok ((-1, (string.take n).set (n - 1) 0), { t with
      m_readPos := t.m_readPos + n
      reads := (t.m_readPos, n) :: t.reads }) := by
  obtain ⟨hnul, rest, hrest⟩ := Buffer.nextString_eq_some.mp hs
  have hread := ht.read
  have hvalid := ht.valid
  have hword := ht.word
  have hlen := ht.length_unread
  have hleft := left_eq ht
  rw [hrest, List.length_append, List.length_cons] at hlen hleft
  have hm : ¬sub32 t.m_validBytes t.m_readPos < n := by omega
  have htake : t.unread.take n = string.take n := by
    rw [hrest, List.take_append_of_le_length hn]
  have hnul' : (0 : UInt8) ∉ string.take n := fun h => hnul (List.mem_of_mem_take h)
  have hloop := ht.readUntil (n := n) (.inr (by simp [hrest]))
  rw [htake, takeThrough_of_notMem hnul'] at hloop
  have hidx : (string.take n).idxOf 0 = n := by
    rw [List.idxOf_of_notMem hnul', List.length_take_of_le hn]
  simp only [TracedBuffer.readNextCharString, if_neg hm, hloop, Exec.ok_bind, hidx,
    if_neg hnul', if_neg hpos.ne', List.length_take_of_le hn,
    add32_of_lt (show t.m_readPos + n < 2 ^ 32 by omega)]

/-- A terminator is stored in front of an array of no bytes. -/
private theorem readNextCharString_empty {n : ℕ}
    (hempty : sub32 t.m_validBytes t.m_readPos = 0 ∨ n = 0) :
    t.readNextCharString n = .error .outOfBounds := by
  have hm : (if sub32 t.m_validBytes t.m_readPos < n then sub32 t.m_validBytes t.m_readPos
      else n) = 0 := by
    split <;> omega
  simp [TracedBuffer.readNextCharString, hm, Buffer.readUntil]

end Readers

/-! ## Agreement -/

/-- Without a string, the bytes are looked at past the valid ones, or a byte is stored in front of
the array. -/
private theorem not_agree_of_none {b : Buffer} (hb : b.Readable) (hs : b.nextString = none) {n : ℕ}
    {r : (ℤ × List UInt8) × TracedBuffer} (hcopy : b.traced.readNextCharString n = .ok r)
    (halloc : ∃ t, b.traced.getNextCharStringAlloc = .ok (b.nextString.map (· ++ [0]), t) ∧
      t.m_readPos = b.afterString ∧ Below t.reads b.m_validBytes) : False := by
  have hlen := hb.length_unread
  have hread := hb.read
  have hvalid := hb.valid
  by_cases hne : b.unread = []
  · have hleft := left_eq (t := b.traced) hb
    change sub32 b.m_validBytes b.m_readPos = b.unread.length at hleft
    rw [hne, List.length_nil] at hleft
    rw [readNextCharString_empty (t := b.traced) (.inl hleft)] at hcopy
    cases hcopy
  · obtain ⟨cells, hcells⟩ := exists_cells (t := b.traced) hb hne
    change b.m_data = some cells at hcells
    have hsized : cells.length = b.m_dataLength := by simpa [Buffer.Sized, hcells] using hb.sized
    obtain ⟨t, halloc, -, hbelow⟩ := halloc
    simp only [TracedBuffer.getNextCharStringAlloc, Buffer.traced, hcells,
      Exec.bind_eq_ok] at halloc
    obtain ⟨string, hloop, hres⟩ := halloc
    obtain ⟨-, rfl⟩ := Prod.mk.inj (Except.ok.inj hres)
    obtain ⟨hshort, -⟩ := below_cons.mp hbelow
    refine Buffer.nextString_eq_none.mp hs (hb.mem_of_readUntil hloop (by omega) ?_)
    change string.length = 0 ∨ b.m_readPos + string.length ≤ b.m_validBytes at hshort
    omega

/-- Where the string does not fit into the bytes to store it in, the readers that skip it agree. -/
private theorem agree_of_cut {b : Buffer} (hb : b.Readable) {string : List UInt8}
    (hs : b.nextString = some string) {n : UInt32} (hpos : 0 < n.toNat)
    (hn : n.toNat ≤ string.length) : StringReadersAgree b n.toNat := by
  have hread := hb.read
  have hlen := hb.length_unread
  have hafter : b.afterString = b.m_readPos + string.length + 1 := by
    simp only [Buffer.afterString, hs]
  obtain ⟨hnul, rest, hrest⟩ := Buffer.nextString_eq_some.mp hs
  rw [hrest, List.length_append, List.length_cons] at hlen
  refine ⟨?_, ?_, ?_⟩
  · obtain ⟨mem, hmem, hget⟩ := getNextCharString_eq (t := b.traced) hb hs
    refine ⟨some mem, _, hget, by simp [hs], ?_, hafter.symm, ?_⟩
    · intro string' hstring' mem' hmem'
      obtain rfl := Option.some.inj (hs.symm.trans hstring')
      obtain rfl := Option.some.inj hmem'
      exact hmem
    · rw [below_cons]
      change (_ ∨ b.m_readPos + (b.m_validBytes - b.m_readPos) ≤ b.m_validBytes) ∧ _
      exact ⟨.inr (by omega), below_nil _⟩
  · rw [hs]
    refine ⟨_, getNextCharStringAlloc_eq (t := b.traced) hb hs, hafter.symm, ?_⟩
    rw [below_cons]
    change (_ ∨ b.m_readPos + (string.length + 1) ≤ b.m_validBytes) ∧ _
    exact ⟨.inr (by omega), below_nil _⟩
  · refine ⟨_, _, _, readNextCharString_of_le (t := b.traced) hb hs hpos hn, ?_, ?_, ?_⟩
    · intro string' hstring' hlt
      obtain rfl := Option.some.inj (hs.symm.trans hstring')
      omega
    · rw [List.length_set, List.length_take]
      exact Nat.min_le_left _ _
    · rw [below_cons]
      change (_ ∨ b.m_readPos + n.toNat ≤ b.m_validBytes) ∧ _
      exact ⟨.inr (by omega), below_nil _⟩

/-- **The three readers agree exactly if there is a string, which does not fit into the bytes to
store it in.** -/
theorem stringReadersAgree_iff {b : Buffer} (hb : b.Readable) (n : UInt32) :
    StringReadersAgree b n.toNat ↔
      ∃ string, b.nextString = some string ∧ 0 < n.toNat ∧ n.toNat ≤ string.length := by
  constructor
  · intro h
    obtain ⟨count, dst, t, hcopy, hstored, -⟩ := h.readNextCharString
    cases hs : b.nextString with
    | none =>
      exfalso
      exact not_agree_of_none hb hs hcopy h.getNextCharStringAlloc
    | some string =>
      refine ⟨string, rfl, ?_, ?_⟩
      · by_contra hzero
        rw [readNextCharString_empty (t := b.traced) (.inr (by omega))] at hcopy
        cases hcopy
      · by_contra hlt
        have hlt := Nat.lt_of_not_le hlt
        rw [readNextCharString_of_lt (t := b.traced) hb hs hlt] at hcopy
        obtain ⟨-, rfl⟩ := Prod.mk.inj (Except.ok.inj hcopy)
        have hpos := (hstored string hs hlt).2.2
        simp only [Buffer.afterString, hs] at hpos
        change b.m_readPos + string.length = _ at hpos
        omega
  · rintro ⟨string, hs, hpos, hn⟩
    exact agree_of_cut hb hs hpos hn

theorem readable_nonOwning {data : List UInt8} (hword : data.length < 2 ^ 32) :
    (Buffer.nonOwning data data.length).Readable where
  sized := List.length_map _
  word := hword
  read := Nat.zero_le _
  valid := le_rfl
  defined := by simp [Buffer.Defined, Buffer.contents, Buffer.nonOwning]

/-- One byte to store the string `"ab"` in. -/
theorem stringReadersAgree_iff_ab :
    StringReadersAgree (Buffer.nonOwning [0x61, 0x62, 0] 3) (UInt32.toNat 1) :=
  (stringReadersAgree_iff (readable_nonOwning (by decide)) 1).mpr
    ⟨[0x61, 0x62], by decide, by decide, by decide⟩

/-- **The readers do not always agree**: what is copied into memory of the caller is counted, and
skipped, without its terminator. -/
theorem not_forall_stringReadersAgree :
    ¬∀ (b : Buffer) (n : UInt32), b.Readable → StringReadersAgree b n.toNat := by
  intro h
  have hread : (Buffer.nonOwning [0x61, 0x62, 0] 3).traced.readNextCharString 8 =
      .ok ((2, [0x61, 0x62, 0]), { (Buffer.nonOwning [0x61, 0x62, 0] 3).traced with
        m_readPos := 2
        reads := [(0, 3)] }) := by
    decide
  obtain ⟨count, dst, t, hcopy, hstored, -⟩ :=
    (h (Buffer.nonOwning [0x61, 0x62, 0] 3) 8
      (readable_nonOwning (by decide))).readNextCharString
  obtain ⟨hcount, -⟩ := hstored [0x61, 0x62] (by decide) (by decide)
  obtain ⟨hresult, -⟩ := Prod.mk.inj (Exec.unique hcopy hread)
  obtain ⟨rfl, -⟩ := Prod.mk.inj hresult
  exact absurd hcount (by decide)

end CppCore.Utils
