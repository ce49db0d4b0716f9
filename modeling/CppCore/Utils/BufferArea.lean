import CppCore.Lib.PrefixCodec
import CppCore.Utils.BufferWrite

/-!
# What writing leaves in the data area

The writers copy their bytes over the cells at the write position.  When these do not fit, a
resizable buffer first moves to a new data area, of which only the cells below the write position
are copied; another buffer refuses.

## Main definitions

* `splice` — a list with some elements replaced; its elements and its prefixes.
* `Buffer.area`, `regrown` — the cells of a buffer, and those of a new data area.
* `Buffer.WellFormed` — what holds of every buffer, resizable or not.
* `TracedBuffer.Wrote` — what a write leaves, in an area that may be a new one.
* `writeNext_of_fits`, `writeNext_of_grows`, `writeNext_of_fixed` — the three outcomes of a write.
-/

namespace CppCore.Utils

open Lib

/-! ## Replacing a part of a list -/

section Splice

variable {α : Type} {l : List α} {pos : ℕ} {data : List α}

/-- The list with `data` in the place of what stood from `pos` on. -/
def splice (l : List α) (pos : ℕ) (data : List α) : List α :=
  l.take pos ++ data ++ l.drop (pos + data.length)

/-- Lists that begin alike begin alike with fewer elements. -/
theorem take_eq_of_le {l' : List α} {m n : ℕ} (hmn : m ≤ n) (h : l.take n = l'.take n) :
    l.take m = l'.take m := by
  have htake := congrArg (List.take m) h
  rwa [List.take_take, List.take_take, Nat.min_eq_left hmn] at htake

@[simp] theorem splice_nil (l : List α) (pos : ℕ) : splice l pos [] = l := by simp [splice]

theorem length_splice (h : pos + data.length ≤ l.length) :
    (splice l pos data).length = l.length := by
  simp only [splice, List.length_append, List.length_take, List.length_drop]
  omega

theorem take_splice (h : pos ≤ l.length) : (splice l pos data).take pos = l.take pos := by
  have hlen : (l.take pos).length = pos := List.length_take_of_le h
  rw [splice, List.append_assoc, List.take_append_of_le_length hlen.ge,
    List.take_of_length_le hlen.le]

/-- The data stands where it was put. -/
theorem prefix_drop_splice (h : pos ≤ l.length) : data <+: (splice l pos data).drop pos := by
  have hlen : (l.take pos).length = pos := List.length_take_of_le h
  rw [splice, List.append_assoc, List.drop_append_of_le_length hlen.ge,
    List.drop_of_length_le hlen.le]
  exact ⟨_, rfl⟩

theorem getElem?_splice_of_lt (h : pos ≤ l.length) {i : ℕ} (hi : i < pos) :
    (splice l pos data)[i]? = l[i]? := by
  rw [← List.getElem?_take_of_lt hi, take_splice h, List.getElem?_take_of_lt hi]

theorem getElem?_splice_of_ge (h : pos + data.length ≤ l.length) {i : ℕ}
    (hi : pos + data.length ≤ i) : (splice l pos data)[i]? = l[i]? := by
  have hlen : (l.take pos ++ data).length = pos + data.length := by
    rw [List.length_append, List.length_take]
    omega
  rw [splice, List.getElem?_append_right (by omega), hlen, List.getElem?_drop]
  congr 1
  omega

end Splice

/-! ## The data area -/

namespace Buffer

/-- The cells of the data area. -/
def area (b : Buffer) : List (Option UInt8) := b.m_data.getD []

/-- What holds of a buffer between two operations, also of one that may not resize. -/
structure WellFormed (b : Buffer) : Prop where
  sized : b.Sized
  word : b.m_dataLength < 2 ^ 32
  read : b.m_readPos ≤ b.m_validBytes
  valid : b.m_validBytes ≤ b.m_dataLength
  write : b.m_writePos ≤ b.m_dataLength

theorem WellFormed.sound {b : Buffer} (h : b.WellFormed) (hresize : b.m_resize = true) : b.Sound :=
  ⟨hresize, h.sized, h.word, h.read, h.valid, h.write⟩

theorem WellFormed.length_area {b : Buffer} (h : b.WellFormed) : b.area.length = b.m_dataLength :=
  h.sized

/-- The cells of a new data area: those below a position, and some that nobody has written. -/
def regrown (area : List (Option UInt8)) (pos length : ℕ) : List (Option UInt8) :=
  area.take pos ++ List.replicate (length - pos) none

theorem length_regrown {area : List (Option UInt8)} {pos length : ℕ} (hpos : pos ≤ area.length)
    (hle : pos ≤ length) : (regrown area pos length).length = length := by
  simp only [regrown, List.length_append, List.length_take, List.length_replicate]
  omega

theorem take_regrown {area : List (Option UInt8)} {pos length : ℕ} (hpos : pos ≤ area.length) :
    (regrown area pos length).take pos = area.take pos := by
  have hlen : (area.take pos).length = pos := List.length_take_of_le hpos
  rw [regrown, List.take_append_of_le_length hlen.ge, List.take_of_length_le hlen.le]

/-- Storing is replacing cells. -/
theorem store_splice {m_data : Option (List (Option UInt8))} {pos : ℕ} {data : List UInt8}
    (hle : pos + data.length ≤ (m_data.getD []).length) :
    ∃ m_data', store m_data pos data = .ok m_data' ∧
      m_data'.getD [] = splice (m_data.getD []) pos (data.map some) := by
  cases m_data with
  | none =>
    have hnil : data = [] := List.length_eq_zero_iff.mp (by
      rw [Option.getD_none, List.length_nil] at hle
      omega)
    exact ⟨none, by simp [store, hnil], by simp [hnil]⟩
  | some cells =>
    rw [Option.getD_some] at hle
    exact ⟨_, by rw [store, if_pos hle], by simp [splice]⟩

theorem le_of_store {m_data m_data' : Option (List (Option UInt8))} {pos : ℕ}
    {data : List UInt8} (hne : data ≠ []) (hstore : store m_data pos data = .ok m_data') :
    pos + data.length ≤ (m_data.getD []).length := by
  cases m_data with
  | none => simp [store, hne] at hstore
  | some cells =>
    by_contra hlt
    rw [Option.getD_some] at hlt
    rw [store, if_neg hlt] at hstore
    cases hstore

/-- Growing copies the cells below the write position. -/
theorem enlargeData_area {b b' : Buffer} {amount : ℕ} {ok : Bool} (hresize : b.m_resize = true)
    (hsized : b.Sized) (hwrite : b.m_writePos ≤ b.m_dataLength)
    (hgrow : b.enlargeData amount = .ok (ok, b')) :
    b'.area = regrown b.area b.m_writePos (b.grownLength amount) := by
  rw [Sized] at hsized
  simp only [enlargeData, hresize, if_true] at hgrow
  cases hdata : b.m_data with
  | none =>
    rw [hdata, Option.getD_none, List.length_nil] at hsized
    have hzero : b.m_writePos = 0 := by omega
    simp only [hdata] at hgrow
    obtain ⟨-, rfl⟩ := Prod.mk.inj (Except.ok.inj hgrow)
    simp [area, hdata, regrown, hzero, grownLength]
  | some cells =>
    simp only [hdata] at hgrow
    split at hgrow
    · obtain ⟨-, rfl⟩ := Prod.mk.inj (Except.ok.inj hgrow)
      simp [area, hdata, regrown, grownLength]
    · cases hgrow

end Buffer

/-! ## Reading what is there -/

namespace Buffer

variable {b : Buffer} {bytes : List UInt8} {pos : ℕ}

/-- Every valid byte has been written. -/
def Defined (b : Buffer) : Prop := b.m_validBytes ≤ b.contents.length

theorem map_initialized_isPrefix (cells : List (Option UInt8)) :
    (initialized cells).map some <+: cells := by
  induction cells with
  | nil => exact List.prefix_rfl
  | cons cell cells ih =>
    cases cell with
    | none => exact List.nil_prefix
    | some byte => exact List.cons_prefix_cons.mpr ⟨rfl, ih⟩

/-- The memory behind a pointer to bytes that have been written begins with them. -/
theorem prefix_initialized {cells : List (Option UInt8)} (h : bytes.map some <+: cells) :
    bytes <+: initialized cells := by
  obtain ⟨rest, rfl⟩ := h
  refine ⟨initialized rest, ?_⟩
  induction bytes with
  | nil => rfl
  | cons byte bytes ih => simp [initialized, ih]

/-- A cell holds a byte. -/
theorem cell_eq_ok {byte : UInt8} : b.cell pos = .ok byte ↔ b.area[pos]? = some (some byte) := by
  cases hdata : b.m_data with
  | none => simp [cell, area, hdata, deref]
  | some cells =>
    simp only [cell, area, hdata, deref, Exec.ok_bind, Option.getD_some, byteAt_eq_ok]
    by_cases hlt : pos < cells.length
    · rw [List.drop_eq_getElem_cons hlt, List.getElem?_eq_getElem hlt]
      cases cells[pos] <;> simp [initialized]
    · rw [List.drop_of_length_le (Nat.le_of_not_lt hlt),
        List.getElem?_eq_none (Nat.le_of_not_lt hlt)]
      simp [initialized]

/-- The loop over bytes that stand at a position, as long as it stops among them. -/
theorem readUntil_of_prefix {stop : UInt8 → Bool} {n : ℕ} (hword : pos + bytes.length < 2 ^ 32)
    (h : bytes.map some <+: b.area.drop pos) (hn : n ≤ bytes.length ∨ bytes.any stop) :
    b.readUntil stop pos n = .ok (takeThrough stop (bytes.take n)) := by
  induction bytes generalizing pos n with
  | nil =>
    obtain rfl : n = 0 := by simpa using hn
    rfl
  | cons byte bytes ih =>
    rw [List.map_cons, cons_prefix_drop] at h
    rw [List.length_cons] at hword
    cases n with
    | zero => rfl
    | succ n =>
      rw [readUntil, cell_eq_ok.mpr h.1, Exec.ok_bind, List.take_succ_cons, takeThrough]
      by_cases hstop : stop byte
      · rw [if_pos hstop, if_pos hstop]
      · rw [if_neg hstop, if_neg hstop, add32_of_lt (by omega), ih (by omega) h.2 (by
          simpa [hstop] using hn)]
        rfl

/-- The loop reads the bytes that stand at a position. -/
theorem readBytes_of_prefix (hword : pos + bytes.length < 2 ^ 32)
    (h : bytes.map some <+: b.area.drop pos) : b.readBytes pos bytes.length = .ok bytes := by
  rw [readBytes, readUntil_of_prefix hword h (.inl le_rfl), takeThrough_false, List.take_length]

/-- The loop that returns has read bytes that stand at the position, and as many as it should or
one it stops at. -/
theorem prefix_of_readUntil {stop : UInt8 → Bool} {n : ℕ} (hword : b.area.length < 2 ^ 32)
    (hread : b.readUntil stop pos n = .ok bytes) :
    bytes.map some <+: b.area.drop pos ∧ (bytes.length = n ∨ bytes.any stop) := by
  induction n generalizing pos bytes with
  | zero =>
    obtain rfl := Except.ok.inj hread
    exact ⟨List.nil_prefix, .inl rfl⟩
  | succ n ih =>
    rw [readUntil, Exec.bind_eq_ok] at hread
    obtain ⟨byte, hcell, hread⟩ := hread
    rw [cell_eq_ok] at hcell
    obtain ⟨hlt, -⟩ := List.getElem?_eq_some_iff.mp hcell
    by_cases hstop : stop byte
    · rw [if_pos hstop] at hread
      obtain rfl := Except.ok.inj hread
      exact ⟨cons_prefix_drop.mpr ⟨hcell, List.nil_prefix⟩, .inr (by simp [hstop])⟩
    · rw [if_neg hstop, Exec.bind_eq_ok] at hread
      obtain ⟨rest, hrest, hread⟩ := hread
      obtain rfl := Except.ok.inj hread
      by_cases hword' : pos + 1 < 2 ^ 32
      · rw [add32_of_lt hword'] at hrest
        obtain ⟨hbytes, hend⟩ := ih hrest
        refine ⟨cons_prefix_drop.mpr ⟨hcell, hbytes⟩, ?_⟩
        simpa [hstop] using hend
      · omega

/-- The valid bytes of a buffer. -/
theorem Defined.readBytes (hdef : b.Defined) (hvalid : b.m_validBytes < 2 ^ 32) :
    b.readBytes 0 b.m_validBytes = .ok (b.contents.take b.m_validBytes) ∧
      (b.contents.take b.m_validBytes).length = b.m_validBytes := by
  have hlen : (b.contents.take b.m_validBytes).length = b.m_validBytes :=
    List.length_take_of_le hdef
  have hprefix : (b.contents.take b.m_validBytes).map some <+: b.area.drop 0 := by
    rw [List.map_take, List.drop_zero]
    exact (List.take_prefix _ _).trans (map_initialized_isPrefix _)
  refine ⟨?_, hlen⟩
  have hread := readBytes_of_prefix (show 0 + _ < 2 ^ 32 by omega) hprefix
  rwa [hlen] at hread

end Buffer

/-! ## The three outcomes of a write -/

namespace TracedBuffer

variable {t t' : TracedBuffer} {align : ℕ → ℕ}

/-- What a write of `data` at `pos` leaves, into an area with some cells and length. -/
structure Wrote (t t' : TracedBuffer) (pos : ℕ) (data : List UInt8)
    (cells : List (Option UInt8)) (length : ℕ) : Prop where
  area : t'.area = splice cells pos (data.map some)
  resize : t'.m_resize = t.m_resize
  sized : t'.Sized
  dataLength : t'.m_dataLength = length
  readPos : t'.m_readPos = t.m_readPos
  writePos : t'.m_writePos = pos + data.length
  validBytes : t'.m_validBytes = max t.m_validBytes (pos + data.length)
  writes : Below t.writes length → Below t'.writes length

/-- What was there stays well formed. -/
theorem Wrote.wellFormed {pos length : ℕ} {data : List UInt8} {cells : List (Option UInt8)}
    (hw : t.Wrote t' pos data cells length) (ht : t.WellFormed) (hword : length < 2 ^ 32)
    (hvalid : t.m_validBytes ≤ length) (hfits : pos + data.length ≤ length) : t'.WellFormed where
  sized := hw.sized
  word := by rwa [hw.dataLength]
  read := by
    rw [hw.readPos, hw.validBytes]
    exact ht.read.trans (Nat.le_max_left _ _)
  valid := by
    rw [hw.validBytes, hw.dataLength]
    exact max_le hvalid hfits
  write := by rwa [hw.writePos, hw.dataLength]

/-- Storing bytes that fit. -/
theorem place_spec (hsized : t.Sized) (hword : t.m_dataLength < 2 ^ 32) {data : List UInt8}
    (hle : t.m_writePos + data.length ≤ t.m_dataLength) :
    ∃ t', t.place data = .ok t' ∧ t.Wrote t' t.m_writePos data t.area t.m_dataLength := by
  obtain ⟨t', hplace, hp⟩ := place_of_le hsized hword hle
  have harea : t'.area = splice t.area t.m_writePos (data.map some) := by
    obtain ⟨m_data, hstore, harea⟩ :=
      Buffer.store_splice (show t.m_writePos + data.length ≤ t.area.length by
        rwa [show t.area.length = t.m_dataLength from hsized])
    simp only [place, hstore, Exec.ok_bind] at hplace
    obtain rfl := Except.ok.inj hplace
    exact harea
  refine ⟨t', hplace, harea, hp.resize, hp.sized, hp.dataLength, hp.readPos, hp.writePos,
    hp.validBytes, ?_⟩
  intro hbelow
  rw [hp.writes, below_cons]
  exact ⟨.inr hle, hbelow⟩

/-- There is room for what fits. -/
theorem makeRoom_of_fits (hword : t.m_dataLength < 2 ^ 32) {n : ℕ} (amount : ℕ)
    (hfits : t.m_writePos + n ≤ t.m_dataLength) : t.makeRoom n amount = .ok (true, t) := by
  have hleft : ¬t.m_dataLength - t.m_writePos < n := by omega
  rw [makeRoom, sub32_of_le (by omega) hword, if_pos (by simpa using hleft)]

/-- A buffer that may not resize refuses what does not fit. -/
theorem makeRoom_of_fixed (hresize : t.m_resize = false) (hword : t.m_dataLength < 2 ^ 32)
    (hpos : t.m_writePos ≤ t.m_dataLength) {n : ℕ} (amount : ℕ)
    (hfull : t.m_dataLength < t.m_writePos + n) : t.makeRoom n amount = .ok (false, t) := by
  have hleft : t.m_dataLength - t.m_writePos < n := by omega
  rw [makeRoom, sub32_of_le hpos hword, if_neg (by simpa using hleft)]
  simp [enlargeData, Buffer.enlargeData, hresize]

/-- A resizable buffer refuses nothing. -/
theorem makeRoom_fst (hresize : t.m_resize = true) {n amount : ℕ} {ok : Bool}
    (hmake : t.makeRoom n amount = .ok (ok, t')) : ok = true := by
  rw [makeRoom] at hmake
  split at hmake
  · exact (Prod.mk.inj (Except.ok.inj hmake)).1.symm
  · rw [enlargeData, Exec.bind_eq_ok] at hmake
    obtain ⟨⟨ok', b⟩, hgrow, hmake⟩ := hmake
    obtain ⟨rfl, -⟩ := Prod.mk.inj (Except.ok.inj hmake)
    exact (Buffer.enlargeData_fst hgrow).1.trans hresize

/-- A resizable buffer moves to a larger area for what does not fit. -/
theorem makeRoom_of_grows (hresize : t.m_resize = true) (hsized : t.Sized)
    (hpos : t.m_writePos ≤ t.m_dataLength) {n amount : ℕ}
    (hfull : t.m_dataLength < t.m_writePos + n)
    (hgrow : t.m_dataLength + max amount (t.m_dataLength / 4) < 2 ^ 32) :
    ∃ t', t.makeRoom n amount = .ok (true, t') ∧
      t.Grown t' (t.m_dataLength + max amount (t.m_dataLength / 4)) ∧
      t'.area = Buffer.regrown t.area t.m_writePos
        (t.m_dataLength + max amount (t.m_dataLength / 4)) := by
  have hword : t.m_dataLength < 2 ^ 32 := by omega
  have hleft : t.m_dataLength - t.m_writePos < n := by omega
  have hlength : t.grownLength amount = t.m_dataLength + max amount (t.m_dataLength / 4) :=
    add32_of_lt hgrow
  obtain ⟨t', henlarge, hgrown, -⟩ :=
    enlargeData_of_le hresize hsized hpos (show t.m_writePos ≤ t.grownLength amount by omega)
  rw [← hlength]
  refine ⟨t', ?_, hgrown, ?_⟩
  · rw [makeRoom, sub32_of_le hpos hword, if_neg (by simpa using hleft), henlarge]
  · rw [enlargeData, Exec.bind_eq_ok] at henlarge
    obtain ⟨⟨ok, b⟩, hb, henlarge⟩ := henlarge
    obtain ⟨-, rfl⟩ := Prod.mk.inj (Except.ok.inj henlarge)
    exact Buffer.enlargeData_area hresize hsized hpos hb

/-- **What fits is stored**, and the data area stays. -/
theorem writeNext_of_fits (hsized : t.Sized) (hword : t.m_dataLength < 2 ^ 32)
    {data : List UInt8} (amount : ℕ)
    (hfits : align t.m_writePos + data.length ≤ t.m_dataLength) :
    ∃ t', t.writeNext align amount data = .ok (true, t') ∧
      t.Wrote t' (align t.m_writePos) data t.area t.m_dataLength := by
  obtain ⟨t', hplace, hw⟩ :=
    place_spec (t := { t with m_writePos := align t.m_writePos }) hsized hword hfits
  have hroom := makeRoom_of_fits (t := { t with m_writePos := align t.m_writePos }) hword amount
    hfits
  refine ⟨t', ?_, hw.area, hw.resize, hw.sized, hw.dataLength, hw.readPos, hw.writePos,
    hw.validBytes, hw.writes⟩
  simp only [writeNext, hroom, Exec.ok_bind, if_true, hplace]

/-- **What does not fit is refused** by a buffer that may not resize, but for the alignment. -/
theorem writeNext_of_fixed (hresize : t.m_resize = false) (hword : t.m_dataLength < 2 ^ 32)
    (hpos : align t.m_writePos ≤ t.m_dataLength) {data : List UInt8} (amount : ℕ)
    (hfull : t.m_dataLength < align t.m_writePos + data.length) :
    t.writeNext align amount data = .ok (false, { t with m_writePos := align t.m_writePos }) := by
  have hroom := makeRoom_of_fixed (t := { t with m_writePos := align t.m_writePos }) hresize hword
    hpos amount hfull
  simp only [writeNext, hroom, Exec.ok_bind, Bool.false_eq_true, if_false]

/-- **What does not fit is stored in a new data area**, into which the cells below the write
position were copied. -/
theorem writeNext_of_grows (hresize : t.m_resize = true) (hsized : t.Sized)
    (hpos : align t.m_writePos ≤ t.m_dataLength) {data : List UInt8} {amount : ℕ}
    (hfull : t.m_dataLength < align t.m_writePos + data.length)
    (hgrow : t.m_dataLength + max amount (t.m_dataLength / 4) < 2 ^ 32)
    (hfits : align t.m_writePos + data.length ≤
      t.m_dataLength + max amount (t.m_dataLength / 4)) :
    ∃ t', t.writeNext align amount data = .ok (true, t') ∧
      t.Wrote t' (align t.m_writePos) data
        (Buffer.regrown t.area (align t.m_writePos)
          (t.m_dataLength + max amount (t.m_dataLength / 4)))
        (t.m_dataLength + max amount (t.m_dataLength / 4)) := by
  obtain ⟨u, hroom, hg, harea⟩ :=
    makeRoom_of_grows (t := { t with m_writePos := align t.m_writePos }) hresize hsized hpos hfull
      hgrow
  have hw : u.m_writePos = align t.m_writePos := hg.writePos
  have hlength := hg.dataLength
  simp only at hlength
  obtain ⟨t', hplace, hp⟩ := place_spec hg.sized (by omega)
    (show u.m_writePos + data.length ≤ u.m_dataLength by omega)
  refine ⟨t', ?_, ?_, hp.resize.trans hg.resize, hp.sized, hp.dataLength.trans hlength,
    hp.readPos.trans hg.readPos, ?_, ?_, ?_⟩
  · simp only [writeNext, hroom, Exec.ok_bind, if_true, hplace]
  · rw [hp.area, harea, hw]
    rfl
  · rw [hp.writePos, hw]
  · rw [hp.validBytes, hg.validBytes, hw]
  · intro hbelow
    rw [← hlength]
    apply hp.writes
    rw [hlength]
    exact hg.writes _ (by simp only; omega) hbelow

/-! ## Appending -/

/-- A write of `n` bytes at `pos` fits, or the data area may and can grow for it. -/
def Room (t : TracedBuffer) (pos n amount : ℕ) : Prop :=
  pos + n ≤ t.m_dataLength ∨ t.m_resize = true ∧ n ≤ amount ∧ t.HasRoom pos n amount

/-- What a write of `data` at `pos`, which may lie behind the write position, leaves. -/
structure Appended (t t' : TracedBuffer) (pos : ℕ) (data : List UInt8) : Prop where
  below : t'.area.take t.m_writePos = t.area.take t.m_writePos
  bytes : data.map some <+: t'.area.drop pos
  resize : t'.m_resize = t.m_resize
  wellFormed : t'.WellFormed
  readPos : t'.m_readPos = t.m_readPos
  writePos : t'.m_writePos = pos + data.length
  validBytes : t'.m_validBytes = max t.m_validBytes (pos + data.length)
  writes : Below t.writes t.m_dataLength → Below t'.writes t'.m_dataLength

/-- A write into cells that begin as those of the buffer do. -/
theorem Wrote.appended {pos length : ℕ} {data : List UInt8} {cells : List (Option UInt8)}
    (hw : t.Wrote t' pos data cells length) (ht : t.WellFormed) (hpos : t.m_writePos ≤ pos)
    (hcells : cells.take t.m_writePos = t.area.take t.m_writePos) (hlen : cells.length = length)
    (hle : t.m_dataLength ≤ length) (hword : length < 2 ^ 32)
    (hfits : pos + data.length ≤ length) : t.Appended t' pos data where
  below := by
    rw [hw.area, ← hcells]
    exact take_eq_of_le hpos (take_splice (by omega))
  bytes := by
    rw [hw.area]
    exact prefix_drop_splice (by omega)
  resize := hw.resize
  wellFormed := hw.wellFormed ht hword (ht.valid.trans hle) hfits
  readPos := hw.readPos
  writePos := hw.writePos
  validBytes := hw.validBytes
  writes := by
    intro hbelow
    rw [hw.dataLength]
    exact hw.writes (hbelow.mono hle)

/-- A write that fits appends its bytes, and the data area stays as long as it was. -/
theorem writeNext_appended_of_fits (ht : t.WellFormed) (hge : t.m_writePos ≤ align t.m_writePos)
    {data : List UInt8} (amount : ℕ)
    (hfits : align t.m_writePos + data.length ≤ t.m_dataLength) :
    ∃ t', t.writeNext align amount data = .ok (true, t') ∧
      t.Appended t' (align t.m_writePos) data ∧ t'.m_dataLength = t.m_dataLength := by
  obtain ⟨t', hwrite, hw⟩ := writeNext_of_fits ht.sized ht.word amount hfits
  exact ⟨t', hwrite, hw.appended ht hge rfl ht.length_area le_rfl ht.word hfits, hw.dataLength⟩

/-- A write for which the data area grows appends its bytes. -/
theorem writeNext_appended_of_grows (ht : t.WellFormed) (hge : t.m_writePos ≤ align t.m_writePos)
    (hresize : t.m_resize = true) (hpos : align t.m_writePos ≤ t.m_dataLength)
    {data : List UInt8} {amount : ℕ} (hamount : data.length ≤ amount)
    (hfull : t.m_dataLength < align t.m_writePos + data.length)
    (hgrow : t.m_dataLength + max amount (t.m_dataLength / 4) < 2 ^ 32) :
    ∃ t', t.writeNext align amount data = .ok (true, t') ∧
      t.Appended t' (align t.m_writePos) data ∧
      t'.m_dataLength = t.m_dataLength + max amount (t.m_dataLength / 4) := by
  have hlen := ht.length_area
  have hfits : align t.m_writePos + data.length ≤
      t.m_dataLength + max amount (t.m_dataLength / 4) := by omega
  obtain ⟨t', hwrite, hw⟩ := writeNext_of_grows hresize ht.sized hpos hfull hgrow hfits
  refine ⟨t', hwrite, hw.appended ht hge ?_ ?_ (by omega) hgrow hfits, hw.dataLength⟩
  · exact take_eq_of_le hge (Buffer.take_regrown (by omega))
  · exact Buffer.length_regrown (by omega) (by omega)

/-- **A write with room appends its bytes** to what is below the write position. -/
theorem writeNext_of_room (ht : t.WellFormed) (hge : t.m_writePos ≤ align t.m_writePos)
    {data : List UInt8} {amount : ℕ}
    (hroom : t.Room (align t.m_writePos) data.length amount) :
    ∃ t', t.writeNext align amount data = .ok (true, t') ∧
      t.Appended t' (align t.m_writePos) data := by
  by_cases hfits : align t.m_writePos + data.length ≤ t.m_dataLength
  · obtain ⟨t', hwrite, happ, -⟩ := writeNext_appended_of_fits ht hge amount hfits
    exact ⟨t', hwrite, happ⟩
  · obtain ⟨hresize, hamount, hpos, hgrow⟩ := hroom.resolve_left hfits
    obtain ⟨t', hwrite, happ, -⟩ := writeNext_appended_of_grows ht hge hresize hpos hamount
      (Nat.lt_of_not_le hfits) (hgrow (Nat.lt_of_not_le hfits))
    exact ⟨t', hwrite, happ⟩

/-- Appending twice. -/
theorem Appended.trans {u : TracedBuffer} {pos : ℕ} {data data' : List UInt8}
    (h : t.Appended t' pos data) (hpos : t.m_writePos ≤ pos)
    (h' : t'.Appended u (pos + data.length) data') : t.Appended u pos (data ++ data') where
  below := by
    have hle : t.m_writePos ≤ t'.m_writePos := by
      rw [h.writePos]
      omega
    rw [← h.below]
    exact take_eq_of_le hle h'.below
  bytes := by
    rw [List.map_append, append_prefix_drop, List.length_map]
    refine ⟨?_, h'.bytes⟩
    have hbelow := congrArg (List.drop pos) h'.below
    rw [h.writePos, List.drop_take, List.drop_take, Nat.add_sub_cancel_left] at hbelow
    have hbytes := h.bytes
    rw [List.prefix_iff_eq_take, List.length_map] at hbytes
    rw [hbytes, ← hbelow]
    exact List.take_prefix _ _
  resize := h'.resize.trans h.resize
  wellFormed := h'.wellFormed
  readPos := h'.readPos.trans h.readPos
  writePos := by rw [h'.writePos, List.length_append, Nat.add_assoc]
  validBytes := by
    rw [h'.validBytes, h.validBytes, List.length_append]
    omega
  writes := fun hbelow => h'.writes (h.writes hbelow)

/-- The two halves of a 64-bit word, where eight bytes fit at the position that is not aligned. -/
private theorem writeNext_halves_of_fits {u : TracedBuffer} (hu : u.WellFormed)
    (halign : Aligns align) (data : UInt64) (hfits : u.m_writePos + 8 ≤ u.m_dataLength)
    (hroom : u.Room (align u.m_writePos) 8 8) :
    ∃ t₁ t₂, u.writeNext align 8 (be32 (high32bits data)) = .ok (true, t₁) ∧
      t₁.writeNext align 8 (be32 (low32bits data)) = .ok (true, t₂) ∧
      u.Appended t₂ (align u.m_writePos) (be32 (high32bits data) ++ be32 (low32bits data)) := by
  have hword := hu.word
  have hle := halign.le u.m_writePos
  have hge := halign.ge u.m_writePos (by omega)
  have hfits₁ : align u.m_writePos + (be32 (high32bits data)).length ≤ u.m_dataLength := by
    rw [length_be32]
    omega
  obtain ⟨t₁, hhigh, h₁, hlength⟩ := writeNext_appended_of_fits hu hge 8 hfits₁
  have hagain : align t₁.m_writePos = align u.m_writePos + 4 := by
    rw [h₁.writePos, length_be32, halign.again _ (by omega)]
  have hroom₁ : t₁.Room (align t₁.m_writePos) (be32 (low32bits data)).length 8 := by
    rw [hagain, length_be32]
    obtain hfits' | ⟨hresize, -, -, hgrow⟩ := hroom
    · exact .inl (by omega)
    · refine .inr ⟨h₁.resize.trans hresize, by decide, by omega, fun hlt => ?_⟩
      rw [hlength] at hlt ⊢
      exact hgrow (by omega)
  obtain ⟨t₂, hlow, h₂⟩ := writeNext_of_room h₁.wellFormed
    (by rw [hagain, h₁.writePos, length_be32]) hroom₁
  rw [hagain] at h₂
  exact ⟨t₁, t₂, hhigh, hlow, h₁.trans hge (by rw [length_be32]; exact h₂)⟩

/-- **The two halves of a 64-bit word** are appended one after the other. -/
theorem writeNextHalves_of_room (ht : t.WellFormed) (halign : Aligns align)
    {half : UInt32 → TracedBuffer → Exec (Bool × TracedBuffer)}
    (hhalf : ∀ data t, half data t = t.writeNext align 8 (be32 data)) (data : UInt64)
    (hroom : t.Room t.m_writePos 8 16)
    (hroom' : t.m_writePos + 8 ≤ t.m_dataLength → t.Room (align t.m_writePos) 8 8) :
    ∃ t', t.writeNextHalves half data = .ok (true, t') ∧
      t.Appended t' (align t.m_writePos) (be32 (high32bits data) ++ be32 (low32bits data)) := by
  by_cases hfits : t.m_writePos + 8 ≤ t.m_dataLength
  · obtain ⟨t₁, t₂, hhigh, hlow, happ⟩ :=
      writeNext_halves_of_fits ht halign data hfits (hroom' hfits)
    refine ⟨t₂, ?_, happ⟩
    simp only [writeNextHalves, makeRoom_of_fits ht.word _ hfits, Exec.ok_bind, if_true, hhalf,
      hhigh, hlow]
  · obtain ⟨hresize, -, hpos, hgrow⟩ := hroom.resolve_left hfits
    have hgrow := hgrow (by omega)
    obtain ⟨u, hmake, hg, harea⟩ :=
      makeRoom_of_grows hresize ht.sized hpos (n := 8) (by omega) hgrow
    have hlength := hg.dataLength
    have hw := hg.writePos
    have hv := ht.valid
    have hsound := hg.sound (ht.sound hresize) hgrow (by omega) (by omega)
    have hu : u.WellFormed :=
      ⟨hsound.sized, hsound.word, hsound.read, hsound.valid, hsound.write⟩
    have hle := halign.le u.m_writePos
    obtain ⟨t₁, t₂, hhigh, hlow, happ⟩ :=
      writeNext_halves_of_fits hu halign data (by omega) (.inl (by omega))
    rw [hw] at happ
    refine ⟨t₂, ?_, ?_, happ.bytes, happ.resize.trans hg.resize, happ.wellFormed,
      happ.readPos.trans hg.readPos, happ.writePos, ?_, fun hbelow => happ.writes ?_⟩
    · simp only [writeNextHalves, hmake, Exec.ok_bind, if_true, hhalf, hhigh, hlow]
    · have hlen := ht.length_area
      rw [← hw, happ.below, harea, hw, Buffer.take_regrown (by omega)]
    · rw [happ.validBytes, hg.validBytes]
    · rw [hlength]
      exact hg.writes _ (by omega) (hbelow.mono (by omega))

end TracedBuffer

end CppCore.Utils
