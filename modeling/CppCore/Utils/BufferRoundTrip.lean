import CppCore.Utils.BufferArea

/-!
# Typed values through a buffer

A sequence of typed values is written into a fresh buffer, which grows as needed, and read back.
The one case in which that would fail is a buffer that is made two gigabytes large, less a word, and
then asked for as much again: its new length would wrap to zero.  Such a buffer and such a value are
not in memory at the same time.

## Main definitions

* `BufferValue`, `writeAll`, `readAll` — typed values; writing and reading a sequence of them.
* `Written`, `Unread` — what the writers and the readers keep.
* `typedRoundTrips_iff` — what is written is read, but for the buffer that wraps.
* `FitsMemory`, `typedRoundTrips_of_fits` — what is in memory beside the buffer is written and read.
-/

namespace CppCore.Utils

open Lib TracedBuffer

/-! ## Typed values -/

/-- A value that has a writer and a reader; a signed one is its bits. -/
inductive BufferValue
  | int8 (data : UInt8)
  | int16 (data : UInt16)
  | int32 (data : UInt32)
  | int64 (data : UInt64)
  | byteArray (data : List UInt8)
  | charString (data : CString)

namespace BufferValue

/-- The bytes of a value in a buffer. -/
def bytes : BufferValue → List UInt8
  | int8 data => [data]
  | int16 data => be16 data
  | int32 data => be32 data
  | int64 data => be32 (high32bits data) ++ be32 (low32bits data)
  | byteArray data => data
  | charString data => data.bytes

/-- Write a value, and whether that is reported to have succeeded. -/
def write (t : TracedBuffer) : BufferValue → Exec (Bool × TracedBuffer)
  | int8 data => t.writeNext8bit data
  | int16 data => t.writeNextUnaligned16bit data
  | int32 data => t.writeNextUnaligned32bit data
  | int64 data => t.writeNextUnaligned64bit data
  | byteArray data => t.writeNextByteArray data
  | charString data => (t.writeNextCharString (some data)).map (Prod.map (· != 0) id)

/-- Read a value of the same type, a byte array of the same length. -/
def read (t : TracedBuffer) : BufferValue → Exec (BufferValue × TracedBuffer)
  | int8 _ => t.readNext8bit.map (Prod.map int8 id)
  | int16 _ => t.readNextUnaligned16bit.map (Prod.map int16 id)
  | int32 _ => t.readNextUnaligned32bit.map (Prod.map int32 id)
  | int64 _ => t.readNextUnaligned64bit.map (Prod.map int64 id)
  | byteArray data => (t.readNextByteArray data.length).map (Prod.map (byteArray ·.2) id)
  | charString _ => do
    let (nextString, t) ← t.getNextCharString
    let mem ← deref nextString
    let data ← cstring mem
    .ok (charString data, t)

end BufferValue

/-- Write one value after the other, and whether every write succeeded. -/
def writeAll : List BufferValue → TracedBuffer → Exec (Bool × TracedBuffer)
  | [], t => .ok (true, t)
  | value :: values, t => do
    let (ok, t) ← value.write t
    let (ok', t) ← writeAll values t
    .ok (ok && ok', t)

/-- Read values of the same types. -/
def readAll : List BufferValue → TracedBuffer → Exec (List BufferValue × TracedBuffer)
  | [], t => .ok ([], t)
  | value :: values, t => do
    let (value, t) ← value.read t
    let (values, t) ← readAll values t
    .ok (value :: values, t)

/-- The values are written to a fresh buffer without a failure, and then read from it up to its
last byte. -/
def TypedRoundTrips (length : ℕ) (values : List BufferValue) : Prop :=
  ∃ t, writeAll values (Buffer.ofLength length).traced = .ok (true, t) ∧
    ∃ t', readAll values t = .ok (values, t') ∧ t'.remaining = .ok 0

/-- A value for which the largest buffer would have to grow by its own length. -/
def Wraps (length : ℕ) (value : BufferValue) : Prop :=
  align32 length = 2 ^ 31 - 4 ∧ 2 ^ 31 - 3 ≤ value.bytes.length

/-- `sizeof( Buffer )`: the pointers to the virtual functions and to the data, four lengths and two
flags. -/
def sizeofBuffer : ℕ := 28

/-- A fresh buffer, its data area and the array or the string to be written are objects beside each
other in an address space of 32 bits. -/
def FitsMemory (length : ℕ) : BufferValue → Prop
  | .byteArray data => sizeofBuffer + align32 length + data.length ≤ 2 ^ 32
  | .charString data => sizeofBuffer + align32 length + data.bytes.length ≤ 2 ^ 32
  | _ => True

/-! ## Writing -/

/-- The bytes written to a buffer that was made with some length. -/
structure Written (length : ℕ) (bytes : List UInt8) (t : TracedBuffer) : Prop where
  wellFormed : t.WellFormed
  resize : t.m_resize = true
  readPos : t.m_readPos = 0
  writePos : t.m_writePos = bytes.length
  validBytes : t.m_validBytes = bytes.length
  area : bytes.map some <+: t.area
  /-- A buffer that has grown for a few bytes is small. -/
  length : bytes.length < 5 → t.m_dataLength = align32 length ∨
    align32 length < 5 ∧ t.m_dataLength < 32

private theorem align32_lt (a : ℕ) : align32 a < 2 ^ 32 := by
  simp only [align32, add32]
  omega

theorem written_ofLength (length : ℕ) : Written length [] (Buffer.ofLength length).traced where
  wellFormed :=
    ⟨Buffer.sized_ofLength length, align32_lt length, le_rfl, Nat.zero_le _, Nat.zero_le _⟩
  resize := rfl
  readPos := rfl
  writePos := rfl
  validBytes := rfl
  area := List.nil_prefix
  length := fun _ => .inl rfl

section Write

variable {length : ℕ} {bytes data : List UInt8} {t t' : TracedBuffer}

/-- Appending bytes to those written. -/
theorem Written.append (h : Written length bytes t) (happ : t.Appended t' t.m_writePos data)
    (hlength : (bytes ++ data).length < 5 → t'.m_dataLength = align32 length ∨
      align32 length < 5 ∧ t'.m_dataLength < 32) : Written length (bytes ++ data) t' where
  wellFormed := happ.wellFormed
  resize := happ.resize.trans h.resize
  readPos := happ.readPos.trans h.readPos
  writePos := by rw [happ.writePos, h.writePos, List.length_append]
  validBytes := by
    rw [happ.validBytes, h.validBytes, h.writePos, List.length_append]
    omega
  area := by
    have harea := List.prefix_iff_eq_take.mp h.area
    rw [List.length_map, ← h.writePos, ← happ.below] at harea
    rw [List.map_append, ← List.drop_zero (l := t'.area), append_prefix_drop, List.length_map,
      Nat.zero_add, ← h.writePos]
    exact ⟨harea ▸ List.take_prefix _ _, happ.bytes⟩
  length := hlength

/-- A writer that asks for little more than it writes. -/
theorem Written.writeNext (h : Written length bytes t) {amount : ℕ}
    (hamount : data.length ≤ amount ∧ amount ≤ data.length + 7)
    (hbound : bytes.length + data.length < 2 ^ 31)
    (hword : 8 < amount → t.m_dataLength < bytes.length + data.length →
      t.m_dataLength + amount < 2 ^ 32) :
    ∃ t', t.writeNext id amount data = .ok (true, t') ∧ Written length (bytes ++ data) t' := by
  have hlength := h.length
  have hw := h.writePos
  have hw' := h.wellFormed.write
  have hid : t.m_writePos ≤ id t.m_writePos := le_rfl
  by_cases hfits : t.m_writePos + data.length ≤ t.m_dataLength
  · obtain ⟨t', hwrite, happ, hsame⟩ :=
      writeNext_appended_of_fits h.wellFormed hid amount hfits
    refine ⟨t', hwrite, h.append happ fun hshort => ?_⟩
    rw [List.length_append] at hshort
    rw [hsame]
    exact hlength (by omega)
  · obtain ⟨t', hwrite, happ, hgrown⟩ :=
      writeNext_appended_of_grows h.wellFormed hid h.resize hw' hamount.1
        (Nat.lt_of_not_le hfits) (by omega)
    refine ⟨t', hwrite, h.append happ fun hshort => .inr ?_⟩
    rw [List.length_append] at hshort
    have := hlength (by omega)
    omega

/-- **A write of a value that does not wrap** appends its bytes. -/
theorem Written.write (h : Written length bytes t) (value : BufferValue)
    (hbound : bytes.length + value.bytes.length < 2 ^ 31) (hwrap : ¬Wraps length value) :
    ∃ t', value.write t = .ok (true, t') ∧ Written length (bytes ++ value.bytes) t' := by
  have hbytes : ∀ data : List UInt8, bytes.length + data.length < 2 ^ 31 →
      ¬(align32 length = 2 ^ 31 - 4 ∧ 2 ^ 31 - 3 ≤ data.length) →
      ∃ t', t.writeNextByteArray data = .ok (true, t') ∧ Written length (bytes ++ data) t' := by
    intro data hbound hwrap
    have hw := h.writePos
    have hlength := h.length
    have hmod : align32 length % 4 = 0 := by
      rw [align32]
      omega
    refine h.writeNext ?_ hbound fun _ hlt => ?_
    · simp only [align32, add32]
      omega
    · simp only [align32, add32] at hmod hlength hwrap ⊢
      omega
  cases value with
  | int8 data => exact h.writeNext (by simp) hbound fun hlt => absurd hlt (by decide)
  | int16 data => exact h.writeNext (by simp) hbound fun hlt => absurd hlt (by decide)
  | int32 data => exact h.writeNext (by simp) hbound fun hlt => absurd hlt (by decide)
  | int64 data =>
    have hw' := h.wellFormed.write
    have hlen : (BufferValue.int64 data).bytes.length = 8 := rfl
    have hroom : t.Room t.m_writePos 8 16 := by
      refine .inr ⟨h.resize, by decide, hw', fun hlt => ?_⟩
      rw [h.writePos] at hlt
      omega
    obtain ⟨t', hwrite, happ⟩ := writeNextHalves_of_room h.wellFormed aligns_id
      (fun _ _ => rfl : ∀ data t, writeNextUnaligned32bit data t = _) data hroom fun hfits =>
        .inl hfits
    refine ⟨t', hwrite, h.append happ fun hshort => ?_⟩
    rw [List.length_append] at hshort
    change bytes.length + 8 < 5 at hshort
    omega
  | byteArray data => exact hbytes data hbound hwrap
  | charString data =>
    obtain ⟨t', hwrite, hw⟩ := hbytes data.bytes hbound hwrap
    refine ⟨t', ?_, hw⟩
    simp [BufferValue.write, writeNextCharString, hwrite, Except.map]

theorem Written.writes (h : Written length bytes t) {values : List BufferValue}
    (hbound : bytes.length + (values.flatMap BufferValue.bytes).length < 2 ^ 31)
    (hwrap : ∀ value ∈ values, ¬Wraps length value) :
    ∃ t', writeAll values t = .ok (true, t') ∧
      Written length (bytes ++ values.flatMap BufferValue.bytes) t' := by
  induction values generalizing bytes t with
  | nil => exact ⟨t, rfl, by simpa using h⟩
  | cons value values ih =>
    rw [List.flatMap_cons, List.length_append] at hbound
    obtain ⟨t₁, hwrite, h₁⟩ := h.write value (by omega) (hwrap value List.mem_cons_self)
    obtain ⟨t₂, hwrites, h₂⟩ := ih h₁ (by rw [List.length_append]; omega)
      fun value hvalue => hwrap value (List.mem_cons_of_mem _ hvalue)
    refine ⟨t₂, ?_, ?_⟩
    · simp [writeAll, hwrite, hwrites]
    · rwa [List.flatMap_cons, ← List.append_assoc]

/-- A sequence of writes that returns has come to each of them. -/
private theorem exists_write {values values' : List BufferValue} {value : BufferValue}
    {u : TracedBuffer} {ok : Bool} {r : Bool × TracedBuffer}
    (hwrites : writeAll (values ++ value :: values') t = .ok r)
    (hwrites' : writeAll values t = .ok (ok, u)) : ∃ r', value.write u = .ok r' := by
  induction values generalizing t ok r with
  | nil =>
    obtain ⟨-, rfl⟩ := Prod.mk.inj (Except.ok.inj hwrites')
    simp only [List.nil_append, writeAll, Exec.bind_eq_ok] at hwrites
    obtain ⟨r', hwrite, -⟩ := hwrites
    exact ⟨r', hwrite⟩
  | cons first values ih =>
    simp only [List.cons_append, writeAll, Exec.bind_eq_ok] at hwrites hwrites'
    obtain ⟨r₁, hfirst, r₂, hrest, -⟩ := hwrites
    obtain ⟨r₁', hfirst', ⟨ok', u'⟩, hrest', hres⟩ := hwrites'
    obtain rfl := Exec.unique hfirst hfirst'
    obtain ⟨-, rfl⟩ := Prod.mk.inj (Except.ok.inj hres)
    exact ih hrest hrest'

/-- A buffer that wraps does not return. -/
theorem Written.not_write (h : Written length bytes t) {value : BufferValue}
    (hwrap : Wraps length value) (hbound : bytes.length + value.bytes.length < 2 ^ 31)
    (r : Bool × TracedBuffer) : value.write t ≠ .ok r := by
  obtain ⟨hlen, hlong⟩ := hwrap
  have hwrites : ∀ r, t.writeNextByteArray value.bytes ≠ .ok r := by
    intro r hwrite
    have hw := h.writePos
    have hw' := h.wellFormed.write
    have hlength := h.length (by omega)
    have hamount : add32 (align32 value.bytes.length) 4 = 2 ^ 31 + 4 := by
      simp only [align32, add32]
      omega
    have hroom := hasRoom_of_writeNext_of_le h.resize h.wellFormed.sized h.wellFormed.word
      (show id t.m_writePos ≤ t.m_dataLength from hw') (by unfold add32; omega) hwrite
    have := hroom.2
    simp only [id] at this
    omega
  intro hwrite
  cases value with
  | byteArray data => exact hwrites r hwrite
  | charString data =>
    simp only [BufferValue.write, writeNextCharString, Option.getD_some] at hwrite
    cases hbytes : t.writeNextByteArray data.bytes with
    | error e => simp [hbytes, Except.map] at hwrite
    | ok r' => exact hwrites r' hbytes
  | _ => simp [BufferValue.bytes] at hlong

end Write

/-! ## Reading -/

/-- The words of the two halves are the word. -/
theorem makeInt64_halves (data : UInt64) :
    makeInt64 (high32bits data) (low32bits data) = data := by
  apply UInt64.toNat_inj.mp
  have hlt := data.toNat_lt
  have hlow : (low32bits data).toNat = data.toNat % 2 ^ 32 := UInt64.toNat_toUInt32 data
  have hhigh : (high32bits data).toNat = data.toNat / 2 ^ 32 := by
    simp [high32bits, low32bits, Nat.shiftRight_eq_div_pow]
    omega
  have hshift : ((high32bits data).toUInt64 <<< 32).toNat = (data.toNat / 2 ^ 32) <<< 32 := by
    simp [hhigh, Nat.shiftLeft_eq]
    omega
  rw [makeInt64, UInt64.toNat_or, hshift, UInt32.toNat_toUInt64, hlow,
    ← Nat.shiftLeft_add_eq_or_of_lt (Nat.mod_lt _ (by decide)), Nat.shiftLeft_eq]
  exact Nat.div_add_mod' _ _

/-- The bytes that are still to be read. -/
structure Unread (rest : List UInt8) (t : TracedBuffer) : Prop where
  area : rest.map some <+: t.area.drop t.m_readPos
  validBytes : t.m_validBytes = t.m_readPos + rest.length
  bound : t.m_validBytes < 2 ^ 31

section Read

variable {data rest : List UInt8} {t : TracedBuffer}

theorem Written.unread {length : ℕ} (h : Written length data t) (hbound : data.length < 2 ^ 31) :
    Unread data t where
  area := by
    rw [h.readPos, List.drop_zero]
    exact h.area
  validBytes := by rw [h.validBytes, h.readPos, Nat.zero_add]
  bound := by rwa [h.validBytes]

/-- Moving the read position behind the first bytes. -/
theorem Unread.skip (h : Unread (data ++ rest) t) (reads : List (ℕ × ℕ)) :
    Unread rest { t with m_readPos := t.m_readPos + data.length, reads } where
  area := by
    have harea := h.area
    rw [List.map_append, append_prefix_drop, List.length_map] at harea
    exact harea.2
  validBytes := by
    rw [h.validBytes, List.length_append, Nat.add_assoc]
  bound := h.bound

theorem Unread.readBytes (h : Unread (data ++ rest) t) :
    t.readBytes t.m_readPos data.length = .ok data := by
  have hvalid := h.validBytes
  have hbound := h.bound
  have harea := h.area
  rw [List.length_append] at hvalid
  rw [List.map_append, append_prefix_drop] at harea
  exact Buffer.readBytes_of_prefix (by omega) harea.1

/-- A typed reader reads the first bytes. -/
theorem Unread.readNext (h : Unread (data ++ rest) t) :
    ∃ t', t.readNext id data.length = .ok (data, t') ∧ Unread rest t' := by
  have hvalid := h.validBytes
  have hbound := h.bound
  rw [List.length_append] at hvalid
  have hleft : ¬sub32 t.m_validBytes t.m_readPos < data.length := by
    rw [sub32_of_le (by omega) (by omega)]
    omega
  refine ⟨_, ?_, h.skip ((t.m_readPos, data.length) :: t.reads)⟩
  simp only [TracedBuffer.readNext, id, if_neg hleft, h.readBytes, Exec.ok_bind,
    add32_of_lt (show t.m_readPos + data.length < 2 ^ 32 by omega)]

theorem Unread.readNextUnaligned32bit {data : UInt32} (h : Unread (be32 data ++ rest) t) :
    ∃ t', t.readNextUnaligned32bit = .ok (data, t') ∧ Unread rest t' := by
  obtain ⟨t', hread, hrest⟩ := h.readNext
  rw [length_be32] at hread
  refine ⟨t', ?_, hrest⟩
  simp only [TracedBuffer.readNextUnaligned32bit, hread, Except.map, Prod.map, id]
  rw [be32, value32, ofBE32_be32]

theorem Unread.readNextUnaligned64bit {data : UInt64}
    (h : Unread (be32 (high32bits data) ++ be32 (low32bits data) ++ rest) t) :
    ∃ t', t.readNextUnaligned64bit = .ok (data, t') ∧ Unread rest t' := by
  have hvalid := h.validBytes
  have hbound := h.bound
  simp only [List.length_append, length_be32] at hvalid
  have hleft : ¬sub32 t.m_validBytes t.m_readPos < 8 := by
    rw [sub32_of_le (by omega) (by omega)]
    omega
  rw [List.append_assoc] at h
  obtain ⟨t₁, hhigh, h₁⟩ := h.readNextUnaligned32bit
  obtain ⟨t₂, hlow, h₂⟩ := h₁.readNextUnaligned32bit
  refine ⟨t₂, ?_, h₂⟩
  simp only [TracedBuffer.readNextUnaligned64bit, readNextHalves, if_neg hleft, hhigh, hlow,
    Exec.ok_bind, makeInt64_halves]

/-- The signed computation of what is left. -/
theorem Unread.left (h : Unread rest t) :
    subInt32 (int32 t.m_validBytes) (int32 t.m_readPos) = .ok (rest.length : ℤ) := by
  have hvalid := h.validBytes
  have hbound := h.bound
  have hint : ∀ n < 2 ^ 31, int32 n = n := by
    intro n hn
    rw [int32, Nat.mod_eq_of_lt (by omega), if_pos hn]
  rw [hint _ hbound, hint _ (by omega), subInt32, if_pos (by omega), hvalid]
  congr 1
  omega

theorem Unread.readNextByteArray (h : Unread (data ++ rest) t) :
    ∃ t', t.readNextByteArray data.length = .ok ((data.length, data), t') ∧ Unread rest t' := by
  have hvalid := h.validBytes
  have hbound := h.bound
  rw [List.length_append] at hvalid
  have hcount : ((data.length : ℤ) % 2 ^ 32).toNat = data.length := by omega
  have hmin : ¬((data ++ rest).length : ℤ) < data.length := by
    rw [List.length_append]
    omega
  refine ⟨_, ?_, h.skip ((t.m_readPos, data.length) :: t.reads)⟩
  simp only [TracedBuffer.readNextByteArray, h.left, Exec.ok_bind, if_neg hmin, hcount,
    h.readBytes, add32_of_lt (show t.m_readPos + data.length < 2 ^ 32 by omega)]

theorem Unread.getNextCharString {data : CString} (h : Unread (data.bytes ++ rest) t) :
    ∃ mem t', t.getNextCharString = .ok (some mem, t') ∧ data.bytes <+: mem ∧ Unread rest t' := by
  have hvalid := h.validBytes
  have hlen := data.length_bytes
  have harea := h.area
  rw [List.length_append] at hvalid
  have hlt : t.m_readPos < t.m_validBytes := by omega
  obtain ⟨cells, hcells⟩ : ∃ cells, t.m_data = some cells := by
    apply Option.ne_none_iff_exists'.mp
    intro hnone
    have hle := harea.length_le
    simp only [Buffer.area, hnone, Option.getD_none, List.drop_nil, List.length_map,
      List.length_append, List.length_nil] at hle
    omega
  rw [Buffer.area, hcells, Option.getD_some] at harea
  obtain ⟨tail, htail⟩ := Buffer.prefix_initialized harea
  have hrange : (initialized (cells.drop t.m_readPos)).take (t.m_validBytes - t.m_readPos) =
      data.bytes ++ rest := by
    rw [← htail, show t.m_validBytes - t.m_readPos = (data.bytes ++ rest).length by
      rw [List.length_append]
      omega]
    exact List.take_left
  have hidx : (data.bytes ++ rest).idxOf 0 = data.val.length := by
    rw [CString.bytes, List.append_assoc, List.idxOf_append_of_notMem data.property.1]
    simp
  refine ⟨initialized (cells.drop t.m_readPos), _, ?_, ?_,
    h.skip ((t.m_readPos, t.m_validBytes - t.m_readPos) :: t.reads)⟩
  · have hmem : (0 : UInt8) ∈ data.bytes ++ rest := by simp [CString.bytes]
    simp only [TracedBuffer.getNextCharString, Buffer.getNextCharString, if_pos hlt, hcells, deref,
      Exec.ok_bind, hrange, if_pos hmem, hidx, hlen]
    rfl
  · rw [← htail, List.append_assoc]
    exact List.prefix_append _ _

/-- **A value that was written is read**, and what follows it is left. -/
theorem Unread.read {value : BufferValue} (h : Unread (value.bytes ++ rest) t) :
    ∃ t', value.read t = .ok (value, t') ∧ Unread rest t' := by
  cases value with
  | int8 data =>
    obtain ⟨t', hread, hrest⟩ := Unread.readNext h
    change t.readNext id 1 = .ok ([data], t') at hread
    exact ⟨t', by simp [BufferValue.read, readNext8bit, hread, Except.map, value8], hrest⟩
  | int16 data =>
    obtain ⟨t', hread, hrest⟩ := Unread.readNext h
    change t.readNext id 2 = .ok (be16 data, t') at hread
    refine ⟨t', ?_, hrest⟩
    simp [BufferValue.read, readNextUnaligned16bit, hread, Except.map, be16, value16, ofBE16_be16]
  | int32 data =>
    obtain ⟨t', hread, hrest⟩ := Unread.readNextUnaligned32bit h
    exact ⟨t', by simp [BufferValue.read, hread, Except.map], hrest⟩
  | int64 data =>
    obtain ⟨t', hread, hrest⟩ := Unread.readNextUnaligned64bit h
    exact ⟨t', by simp [BufferValue.read, hread, Except.map], hrest⟩
  | byteArray data =>
    obtain ⟨t', hread, hrest⟩ := Unread.readNextByteArray h
    change t.readNextByteArray data.length = .ok ((data.length, data), t') at hread
    exact ⟨t', by simp [BufferValue.read, hread, Except.map], hrest⟩
  | charString data =>
    obtain ⟨mem, t', hread, hmem, hrest⟩ := Unread.getNextCharString h
    have hstring := cstring_eq_ok.mpr hmem
    exact ⟨t', by simp [BufferValue.read, hread, deref, hstring], hrest⟩

theorem Unread.reads {values : List BufferValue}
    (h : Unread (values.flatMap BufferValue.bytes ++ rest) t) :
    ∃ t', readAll values t = .ok (values, t') ∧ Unread rest t' := by
  induction values generalizing t with
  | nil => exact ⟨t, rfl, h⟩
  | cons value values ih =>
    rw [List.flatMap_cons, List.append_assoc] at h
    obtain ⟨t₁, hread, h₁⟩ := h.read
    obtain ⟨t₂, hreads, h₂⟩ := ih h₁
    exact ⟨t₂, by simp [readAll, hread, hreads], h₂⟩

end Read

/-! ## There and back -/

private theorem length_le_flatMap {value : BufferValue} {values : List BufferValue}
    (hvalue : value ∈ values) :
    value.bytes.length ≤ (values.flatMap BufferValue.bytes).length := by
  rw [List.flatMap_def]
  exact (List.sublist_flatten_of_mem (List.mem_map_of_mem hvalue)).length_le

/-- **Typed values round trip exactly unless the buffer wraps.** -/
theorem typedRoundTrips_iff (length : UInt32) (values : List BufferValue)
    (htotal : (values.flatMap BufferValue.bytes).length < 2 ^ 31) :
    TypedRoundTrips length.toNat values ↔ ∀ value ∈ values, ¬Wraps length.toNat value := by
  have hfresh := written_ofLength length.toNat
  constructor
  · intro h value hvalue hwrap
    obtain ⟨t, hwrites, -⟩ := h
    obtain ⟨values₁, values₂, rfl⟩ := List.append_of_mem hvalue
    have hlong := hwrap.2
    simp only [List.flatMap_append, List.flatMap_cons, List.length_append] at htotal
    have hshort : ∀ value' ∈ values₁, ¬Wraps length.toNat value' := by
      intro value' hvalue' hwrap'
      have hle := length_le_flatMap hvalue'
      have hlong' := hwrap'.2
      omega
    obtain ⟨t₁, hwrites₁, h₁⟩ := hfresh.writes (by rw [List.length_nil]; omega) hshort
    rw [List.nil_append] at h₁
    obtain ⟨r, hwrite⟩ := exists_write hwrites hwrites₁
    exact h₁.not_write hwrap (by omega) r hwrite
  · intro h
    obtain ⟨t, hwrites, hwritten⟩ := hfresh.writes (by rwa [List.length_nil, Nat.zero_add]) h
    rw [List.nil_append] at hwritten
    have hunread := hwritten.unread htotal
    rw [← List.append_nil (values.flatMap BufferValue.bytes)] at hunread
    obtain ⟨t', hreads, hnone⟩ := hunread.reads
    refine ⟨t, hwrites, t', hreads, ?_⟩
    rw [Buffer.remaining, hnone.left]
    rfl

/-- What is in memory beside the buffer does not make it wrap. -/
theorem FitsMemory.not_wraps {length : ℕ} {value : BufferValue} (h : FitsMemory length value) :
    ¬Wraps length value := by
  rintro ⟨hlength, hlong⟩
  cases value with
  | byteArray data | charString data =>
    simp only [FitsMemory, sizeofBuffer] at h
    simp only [BufferValue.bytes] at hlong
    omega
  | int8 data | int16 data | int32 data | int64 data =>
    revert hlong
    simp [BufferValue.bytes]

/-- **Typed values round trip**, whatever the initial length is and whatever is written. -/
theorem typedRoundTrips_of_fits (length : UInt32) (values : List BufferValue)
    (htotal : (values.flatMap BufferValue.bytes).length < 2 ^ 31)
    (hfits : ∀ value ∈ values, FitsMemory length.toNat value) :
    TypedRoundTrips length.toNat values :=
  (typedRoundTrips_iff length values htotal).mpr fun value hvalue => (hfits value hvalue).not_wraps

/-- A buffer that has to grow in the middle of a word. -/
theorem typedRoundTrips_of_fits_five :
    ∃ t t', writeAll [.int16 0x1234, .int8 0xff, .int64 0x0102030405060708, .charString .empty]
        (Buffer.ofLength 5).traced = .ok (true, t) ∧
      readAll [.int16 0, .int8 0, .int64 0, .charString .empty] t =
        .ok ([.int16 0x1234, .int8 0xff, .int64 0x0102030405060708, .charString .empty], t') ∧
      t'.remaining = .ok 0 := by
  obtain ⟨t, hwrites, t', hreads, hleft⟩ := typedRoundTrips_of_fits 5
    [.int16 0x1234, .int8 0xff, .int64 0x0102030405060708, .charString .empty] (by decide) (by
      simp only [List.forall_mem_cons, List.not_mem_nil, false_imp_iff, implies_true, and_true,
        FitsMemory, true_and]
      decide)
  exact ⟨t, t', hwrites, hreads, hleft⟩

end CppCore.Utils
