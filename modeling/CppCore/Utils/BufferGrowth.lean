import CppCore.Utils.BufferAtomic
import CppCore.Utils.BufferRoundTrip

/-!
# What is left of a buffer that grows

A new data area takes over the cells below the write position.  The valid bytes may reach
further, after the write position was moved back.  A writer that grows stores over the cells in
between, so nothing of them is missing; `reserve` and a formatted string that is shorter than
what was asked for do not.

## Main definitions

* `TracedBuffer.vnprintf` — writing a formatted string.
* `BufferGrowth` — the operations that grow the data area.
* `KeepsContent` — growing keeps the valid bytes.
* `BufferGrowth.Keeps`, `keepsContent_iff` — when it does.
-/

namespace CppCore.Utils

open Lib TracedBuffer

/-! ## Operations that grow -/

/-- `Buffer::vnprintf( size, format, args )`, and `nprintf`; `formatted` is what the format and the
arguments give. -/
def TracedBuffer.vnprintf (size : ℕ) (formatted : List UInt8) (t : TracedBuffer) :
    Exec (ℤ × TracedBuffer) := do
  let pos := t.m_writePos
  let (ok, t) ← t.makeRoom size size
  if ok then
    if size = 0 then
      -- `dst[ size - 1 ]` is far behind the end of any object
      .error .outOfBounds
    else
      let dst := formatted.take (size - 1) ++ [0]
      let m_data ← Buffer.store t.m_data t.m_writePos dst
      let m_data ← Buffer.store m_data (t.m_writePos + (size - 1)) [0]
      let written := dst.idxOf 0 + 1
      let m_writePos := add32 t.m_writePos written
      let m_validBytes := if t.m_validBytes < m_writePos then m_writePos else t.m_validBytes
      .ok (int32 (sub32 m_writePos pos), { t with
        m_data, m_writePos, m_validBytes
        reads := (t.m_writePos, written) :: t.reads
        writes := (t.m_writePos + (size - 1), 1) :: (t.m_writePos, dst.length) :: t.writes })
  else
    .ok (0, t)

/-- An operation that may grow the data area. -/
inductive BufferGrowth
  | reserve (size : { size : ℕ // size < 2 ^ 31 })
  | write (value : { value : BufferValue // value.bytes.length ≤ maxObject })
  | writeNextBuffer
    (data : { b : Buffer // (b.WellFormed ∧ b.Defined) ∧ b.m_dataLength ≤ maxObject })
  | vnprintf (size : UInt32) (formatted : List UInt8)

/-- The bytes by which a writer asks the data area to grow. -/
def BufferValue.amount : BufferValue → ℕ
  | int8 _ | int16 _ => 4
  | int32 _ => 8
  | int64 _ => 16
  | byteArray data => add32 (align32 data.length) 4
  | charString data => add32 (align32 data.bytes.length) 4

namespace BufferGrowth

/-- Perform an operation. -/
def perform (t : TracedBuffer) : BufferGrowth → Exec TracedBuffer
  | reserve size => t.reserve size.val
  | write value => after (value.val.write t)
  | writeNextBuffer data => after (t.writeNextBuffer data.val)
  | vnprintf size formatted => after (t.vnprintf size.toNat formatted)

/-- A `reserve`, or a write that does not fit. -/
def Grows (b : Buffer) : BufferGrowth → Prop
  | reserve _ => True
  | write value => b.m_dataLength < b.m_writePos + value.val.bytes.length
  | writeNextBuffer data => b.m_dataLength < b.m_writePos + data.val.m_validBytes
  | vnprintf size _ => b.m_dataLength < b.m_writePos + size.toNat

/-- The operation writes over a cell. -/
def Overwrites (b : Buffer) (i : ℕ) : BufferGrowth → Prop
  | reserve _ => False
  | write value => b.m_writePos ≤ i ∧ i < b.m_writePos + value.val.bytes.length
  | writeNextBuffer data => b.m_writePos ≤ i ∧ i < b.m_writePos + data.val.m_validBytes
  | vnprintf size formatted =>
    b.m_writePos ≤ i ∧ i < b.m_writePos + min (formatted.length + 1) size.toNat ∨
      i + 1 = b.m_writePos + size.toNat

/-- The capacity that is asked for. -/
def capacity : BufferGrowth → ℕ
  | reserve size => size.val
  | _ => 0

end BufferGrowth

/-- An operation that grows keeps the valid bytes it does not write over, does not make fewer
bytes valid, and leaves the capacity that was asked for. -/
def KeepsContent (b : Buffer) (op : BufferGrowth) : Prop :=
  ∃ t, op.perform b.traced = .ok t ∧
    (∀ i < b.m_validBytes, ¬op.Overwrites b i → t.area[i]? = b.area[i]?) ∧
    b.m_validBytes ≤ t.m_validBytes ∧ op.capacity ≤ t.m_dataLength

/-- The condition under which it does.  The new length is a word; `reserve` does not grow a data
area that is large enough, unless it is too large by more than half the memory, and then shrinks
it; and it copies only what is below the write position. -/
def BufferGrowth.Keeps (b : Buffer) : BufferGrowth → Prop
  | reserve size =>
    if b.m_dataLength ≤ size.val + 3 then
      size.val + 3 < b.m_dataLength + 2 ^ 31 ∧ b.m_writePos = b.m_validBytes
    else
      b.m_dataLength ≤ size.val + 3 + 2 ^ 31 ∨ b.m_writePos = b.m_validBytes ∧
        b.m_validBytes + 2 ^ 32 ≤ b.m_dataLength +
          max ((2 ^ 32 + size.val + 3 - b.m_dataLength) / 4 * 4) (b.m_dataLength / 4)
  | write value => b.m_dataLength + max value.val.amount (b.m_dataLength / 4) < 2 ^ 32
  | writeNextBuffer data =>
    b.m_dataLength + max (align32 data.val.m_validBytes) (b.m_dataLength / 4) < 2 ^ 32
  | vnprintf size formatted =>
    b.m_dataLength + max size.toNat (b.m_dataLength / 4) < 2 ^ 32 ∧
      b.m_validBytes ≤ b.m_writePos + min (formatted.length + 1) size.toNat

/-- A resizable buffer whose write position is not past the valid bytes. -/
structure Buffer.Growable (b : Buffer) : Prop where
  resize : b.m_resize = true
  sized : b.Sized
  word : b.m_dataLength < 2 ^ 32
  write : b.m_writePos ≤ b.m_validBytes
  valid : b.m_validBytes ≤ b.m_dataLength
  defined : b.Defined

/-! ## The cells of the new data area -/

namespace Buffer

variable {b : Buffer} {i : ℕ}

theorem Defined.getElem? (hdef : b.Defined) (hi : i < b.m_validBytes) :
    ∃ byte, b.area[i]? = some (some byte) := by
  have hlt : i < b.contents.length := hi.trans_le hdef
  obtain ⟨tail, htail⟩ := map_initialized_isPrefix b.area
  refine ⟨b.contents[i], ?_⟩
  change b.contents.map some ++ tail = b.area at htail
  rw [← htail, List.getElem?_append_left (by rwa [List.length_map]), List.getElem?_map,
    List.getElem?_eq_getElem hlt]
  rfl

/-- The new cells have no value. -/
theorem getElem?_regrown_ne {area : List (Option UInt8)} {pos length : ℕ}
    (hpos : pos ≤ area.length) (hi : pos ≤ i) (byte : UInt8) :
    (regrown area pos length)[i]? ≠ some (some byte) := by
  have hlen : (area.take pos).length = pos := List.length_take_of_le hpos
  rw [regrown, List.getElem?_append_right (by omega), List.getElem?_replicate]
  split <;> simp

/-- Areas that begin alike have the same cells there. -/
theorem getElem?_of_take {area area' : List (Option UInt8)} {pos : ℕ}
    (htake : area'.take pos = area.take pos) (hi : i < pos) : area'[i]? = area[i]? := by
  rw [← List.getElem?_take_of_lt hi, htake, List.getElem?_take_of_lt hi]

theorem Growable.length_area (hb : b.Growable) : b.area.length = b.m_dataLength := hb.sized

end Buffer

/-! ## Writes that grow -/

section Write

variable {b : Buffer}

/-- A write that stores over everything behind the write position. -/
private theorem keepsContent_of_take {op : BufferGrowth} (hcapacity : op.capacity = 0)
    (hover : ∀ i < b.m_validBytes, b.m_writePos ≤ i → op.Overwrites b i) {t : TracedBuffer}
    (hop : op.perform b.traced = .ok t)
    (htake : t.area.take b.m_writePos = b.area.take b.m_writePos)
    (hvalid : b.m_validBytes ≤ t.m_validBytes) : KeepsContent b op := by
  refine ⟨t, hop, fun i hi hnot => ?_, hvalid, by omega⟩
  by_cases hlt : i < b.m_writePos
  · exact Buffer.getElem?_of_take htake hlt
  · exact absurd (hover i hi (Nat.le_of_not_lt hlt)) hnot

/-- What growing for bytes that are stored at the write position leaves. -/
private theorem writeNext_grown {t : TracedBuffer} (ht : t.Growable) {data : List UInt8}
    {amount : ℕ} (hamount : data.length ≤ amount)
    (hfull : t.m_dataLength < t.m_writePos + data.length)
    (hgrow : t.m_dataLength + max amount (t.m_dataLength / 4) < 2 ^ 32) :
    ∃ t', t.writeNext id amount data = .ok (true, t') ∧
      t'.area.take t.m_writePos = t.area.take t.m_writePos ∧
      t.m_validBytes ≤ t'.m_validBytes := by
  have hpos : t.m_writePos ≤ t.m_dataLength := ht.write.trans ht.valid
  have hpos' : t.m_writePos ≤ t.area.length := ht.length_area ▸ hpos
  have hfits : t.m_writePos + data.length ≤
      t.m_dataLength + max amount (t.m_dataLength / 4) := by omega
  obtain ⟨t', hwrite, hw⟩ :=
    writeNext_of_grows (show t.m_resize = true from ht.resize) ht.sized
      (show id t.m_writePos ≤ t.m_dataLength from hpos) hfull hgrow hfits
  refine ⟨t', hwrite, ?_, ?_⟩
  · rw [hw.area, id, take_splice, Buffer.take_regrown hpos']
    rw [Buffer.length_regrown hpos' (by omega)]
    omega
  · rw [hw.validBytes]
    exact Nat.le_max_left _ _

/-- The same for a word that is stored in two halves. -/
private theorem writeNextUnaligned64bit_grown {t : TracedBuffer} (ht : t.Growable) (data : UInt64)
    (hfull : t.m_dataLength < t.m_writePos + 8)
    (hgrow : t.m_dataLength + max 16 (t.m_dataLength / 4) < 2 ^ 32) :
    ∃ t', t.writeNextUnaligned64bit data = .ok (true, t') ∧
      t'.area.take t.m_writePos = t.area.take t.m_writePos ∧
      t.m_validBytes ≤ t'.m_validBytes := by
  have hpos : t.m_writePos ≤ t.m_dataLength := ht.write.trans ht.valid
  have hpos' : t.m_writePos ≤ t.area.length := ht.length_area ▸ hpos
  obtain ⟨u, hmake, hg, harea⟩ := makeRoom_of_grows ht.resize ht.sized hpos hfull hgrow
  have hlength := hg.dataLength
  have hw := hg.writePos
  have hlen : u.area.length = u.m_dataLength := hg.sized
  obtain ⟨t₁, hhigh, h₁⟩ := writeNext_of_fits hg.sized (by omega) 8
    (show id u.m_writePos + (be32 (high32bits data)).length ≤ u.m_dataLength by
      rw [id, length_be32]
      omega)
  have hw₁ := h₁.writePos
  have hlength₁ := h₁.dataLength
  have hlen₁ : t₁.area.length = t₁.m_dataLength := h₁.sized
  rw [id, length_be32] at hw₁
  obtain ⟨t₂, hlow, h₂⟩ := writeNext_of_fits h₁.sized (by omega) 8
    (show id t₁.m_writePos + (be32 (low32bits data)).length ≤ t₁.m_dataLength by
      rw [id, length_be32]
      omega)
  refine ⟨t₂, ?_, ?_, ?_⟩
  · simp only [TracedBuffer.writeNextUnaligned64bit, writeNextHalves, hmake, Exec.ok_bind, if_true,
      TracedBuffer.writeNextUnaligned32bit, hhigh, hlow]
  · have htake₂ : t₂.area.take t₁.m_writePos = t₁.area.take t₁.m_writePos := by
      rw [h₂.area, id, take_splice (by omega)]
    have htake₁ : t₁.area.take u.m_writePos = u.area.take u.m_writePos := by
      rw [h₁.area, id, take_splice (by omega)]
    rw [take_eq_of_le (by omega) htake₂, ← hw, htake₁, harea, hw, Buffer.take_regrown hpos']
  · rw [h₂.validBytes, h₁.validBytes, hg.validBytes]
    exact (Nat.le_max_left _ _).trans (Nat.le_max_left _ _)

/-- A writer that grows and returns did not wrap. -/
private theorem lt_of_writeNext {t : TracedBuffer} (ht : t.Growable) {data : List UInt8}
    {amount : ℕ} (hamount : amount < 2 ^ 32)
    (hfull : t.m_dataLength < t.m_writePos + data.length) {t' : TracedBuffer}
    (hwrite : after (t.writeNext id amount data) = .ok t') :
    t.m_dataLength + max amount (t.m_dataLength / 4) < 2 ^ 32 := by
  obtain ⟨ok, hwrite⟩ := after_eq_ok.mp hwrite
  have hpos : id t.m_writePos ≤ t.m_dataLength := ht.write.trans ht.valid
  exact (hasRoom_of_writeNext_of_le ht.resize ht.sized ht.word hpos hamount hwrite).2 hfull

private theorem lt_of_writeNextUnaligned64bit {t : TracedBuffer} (ht : t.Growable) {data : UInt64}
    (hfull : t.m_dataLength < t.m_writePos + 8) {t' : TracedBuffer}
    (hwrite : after (t.writeNextUnaligned64bit data) = .ok t') :
    t.m_dataLength + max 16 (t.m_dataLength / 4) < 2 ^ 32 := by
  have hpos : t.m_writePos ≤ t.m_dataLength := ht.write.trans ht.valid
  have hword := ht.word
  obtain ⟨ok, hwrite⟩ := after_eq_ok.mp hwrite
  simp only [TracedBuffer.writeNextUnaligned64bit, writeNextHalves, Exec.bind_eq_ok,
    Prod.exists] at hwrite
  obtain ⟨ok', u, hmake, -⟩ := hwrite
  obtain hgrow | ⟨hle, -⟩ :=
    makeRoom_cases ht.resize ht.sized hword hpos (by decide) hmake hfull
  · exact hgrow
  · omega

/-- An operation that appends bytes keeps the content exactly if the new length is a word. -/
private theorem keepsContent_writeNext_iff (hb : b.Growable) {op : BufferGrowth}
    {data : List UInt8} {amount : ℕ}
    (hperform : op.perform b.traced = after (b.traced.writeNext id amount data))
    (hcapacity : op.capacity = 0)
    (hover : ∀ i, b.m_writePos ≤ i → i < b.m_writePos + data.length → op.Overwrites b i)
    (hamount : amount < 2 ^ 32)
    (hle : b.m_dataLength + max amount (b.m_dataLength / 4) < 2 ^ 32 → data.length ≤ amount)
    (hfull : b.m_dataLength < b.m_writePos + data.length) :
    KeepsContent b op ↔ b.m_dataLength + max amount (b.m_dataLength / 4) < 2 ^ 32 := by
  constructor
  · rintro ⟨t, hop, -⟩
    rw [hperform] at hop
    exact lt_of_writeNext (t := b.traced) hb hamount hfull hop
  · intro hgrow
    have hvalid := hb.valid
    obtain ⟨t, hwrite, htake, hvalid'⟩ := writeNext_grown (t := b.traced) hb (hle hgrow) hfull hgrow
    refine keepsContent_of_take hcapacity ?_ ?_ htake hvalid'
    · intro i hi hge
      exact hover i hge (by omega)
    · rw [hperform]
      exact after_eq_ok.mpr ⟨true, hwrite⟩

/-- **A typed write that grows keeps the content** exactly if the new length is a word. -/
private theorem keepsContent_write_iff (hb : b.Growable)
    (value : { value : BufferValue // value.bytes.length ≤ maxObject })
    (hfull : b.m_dataLength < b.m_writePos + value.val.bytes.length) :
    KeepsContent b (.write value) ↔
      b.m_dataLength + max value.val.amount (b.m_dataLength / 4) < 2 ^ 32 := by
  obtain ⟨value, hmax⟩ := value
  have hover : ∀ i, b.m_writePos ≤ i → i < b.m_writePos + value.bytes.length →
      (BufferGrowth.write ⟨value, hmax⟩).Overwrites b i := fun _ hge hlt => ⟨hge, hlt⟩
  have hbytes : ∀ data : List UInt8, data.length ≤ maxObject →
      add32 (align32 data.length) 4 < 2 ^ 32 ∧ data.length ≤ add32 (align32 data.length) 4 :=
    fun _ hmax => ⟨(byteArrayAmount_lt hmax).2, length_le_byteArrayAmount hmax⟩
  cases value with
  | int8 data =>
    refine keepsContent_writeNext_iff hb rfl rfl hover ?_ ?_ hfull <;>
      simp [BufferValue.amount]
  | int16 data =>
    refine keepsContent_writeNext_iff hb rfl rfl hover ?_ ?_ hfull <;>
      simp [BufferValue.amount]
  | int32 data =>
    refine keepsContent_writeNext_iff hb rfl rfl hover ?_ ?_ hfull <;>
      simp [BufferValue.amount]
  | int64 data =>
    change b.m_dataLength < b.m_writePos + 8 at hfull
    constructor
    · rintro ⟨t, hop, -⟩
      exact lt_of_writeNextUnaligned64bit (t := b.traced) hb hfull hop
    · intro hgrow
      obtain ⟨t, hwrite, htake, hvalid⟩ :=
        writeNextUnaligned64bit_grown (t := b.traced) hb data hfull hgrow
      have hvalid' := hb.valid
      refine keepsContent_of_take rfl (fun i hi hge => hover i hge ?_)
        (after_eq_ok.mpr ⟨true, hwrite⟩) htake hvalid
      change i < b.m_writePos + 8
      omega
  | byteArray data =>
    obtain ⟨hword, hle⟩ := hbytes data hmax
    exact keepsContent_writeNext_iff hb rfl rfl hover hword (fun _ => hle) hfull
  | charString data =>
    obtain ⟨hword, hle⟩ := hbytes data.bytes hmax
    refine keepsContent_writeNext_iff hb ?_ rfl hover hword (fun _ => hle) hfull
    change after (BufferWrite.perform b.traced (.writeNextCharString (some data))) = _
    rw [perform_writeNextCharString]
    rfl

/-! ## Formatted strings that grow -/

/-- A formatted string that does not fit is put into the area grown for it, with a NUL byte in the
last place asked for. -/
private theorem vnprintf_splice {t : TracedBuffer} (ht : t.Growable) {size : ℕ}
    (formatted : List UInt8) (hfull : t.m_dataLength < t.m_writePos + size)
    (hgrow : t.m_dataLength + max size (t.m_dataLength / 4) < 2 ^ 32) :
    ∃ (t' : TracedBuffer) (dst : List UInt8), after (t.vnprintf size formatted) = .ok t' ∧
      t.m_validBytes ≤ t'.m_validBytes ∧ dst.length = min (formatted.length + 1) size ∧
      t'.area = splice (splice
        (Buffer.regrown t.area t.m_writePos (t.m_dataLength + max size (t.m_dataLength / 4)))
        t.m_writePos (dst.map some)) (t.m_writePos + (size - 1)) [some 0] := by
  have hpos : t.m_writePos ≤ t.m_dataLength := ht.write.trans ht.valid
  have hsize : size ≠ 0 := by omega
  obtain ⟨u, hmake, hg, harea⟩ := makeRoom_of_grows ht.resize ht.sized hpos hfull hgrow
  have hlength := hg.dataLength
  have hw := hg.writePos
  have hlen : u.area.length = u.m_dataLength := hg.sized
  have hdst : (formatted.take (size - 1) ++ [0]).length = min (formatted.length + 1) size := by
    simp only [List.length_append, List.length_take, List.length_singleton]
    omega
  generalize hstring : formatted.take (size - 1) ++ [0] = dst at hdst
  have hroom : u.m_writePos + dst.length ≤ u.area.length := by omega
  obtain ⟨m_data, hstore, hstored⟩ := Buffer.store_splice hroom
  have hlen' : (m_data.getD []).length = u.area.length := by
    rw [hstored]
    apply length_splice
    rwa [List.length_map]
  have hlast : u.m_writePos + (size - 1) + [(0 : UInt8)].length ≤ (m_data.getD []).length := by
    rw [List.length_singleton]
    omega
  obtain ⟨m_data', hstore', hstored'⟩ := Buffer.store_splice hlast
  have hrun : ∃ n t', t.vnprintf size formatted = .ok (n, t') ∧ t'.area = m_data'.getD [] ∧
      u.m_validBytes ≤ t'.m_validBytes := by
    simp only [vnprintf, hmake, Exec.ok_bind, if_true, if_neg hsize, hstring, hstore, hstore']
    refine ⟨_, _, rfl, rfl, ?_⟩
    simp only
    split <;> omega
  obtain ⟨n, t', hrun, harea', hvalid⟩ := hrun
  refine ⟨t', dst, after_eq_ok.mpr ⟨n, hrun⟩, hg.validBytes ▸ hvalid, hdst, ?_⟩
  rw [harea', hstored', hstored, ← harea, ← hw]
  rfl

/-- What growing for a formatted string leaves: behind the string, but for the last byte asked for,
the cells have no value. -/
private theorem vnprintf_grown {t : TracedBuffer} (ht : t.Growable) {size : ℕ}
    (formatted : List UInt8) (hfull : t.m_dataLength < t.m_writePos + size)
    (hgrow : t.m_dataLength + max size (t.m_dataLength / 4) < 2 ^ 32) :
    ∃ t', after (t.vnprintf size formatted) = .ok t' ∧
      t'.area.take t.m_writePos = t.area.take t.m_writePos ∧
      t.m_validBytes ≤ t'.m_validBytes ∧
      ∀ i byte, t.m_writePos + min (formatted.length + 1) size ≤ i →
        i + 1 < t.m_writePos + size → t'.area[i]? ≠ some (some byte) := by
  obtain ⟨t', dst, hrun, hvalid, hdst, hcells⟩ := vnprintf_splice ht formatted hfull hgrow
  have hpos : t.m_writePos ≤ t.m_dataLength := ht.write.trans ht.valid
  have hpos' : t.m_writePos ≤ t.area.length := ht.length_area ▸ hpos
  have hlen := Buffer.length_regrown hpos'
    (show t.m_writePos ≤ t.m_dataLength + max size (t.m_dataLength / 4) by omega)
  have hlen₁ : (splice (Buffer.regrown t.area t.m_writePos
      (t.m_dataLength + max size (t.m_dataLength / 4))) t.m_writePos (dst.map some)).length =
      t.m_dataLength + max size (t.m_dataLength / 4) := by
    rw [length_splice, hlen]
    rw [List.length_map, hlen]
    omega
  refine ⟨t', hrun, ?_, hvalid, ?_⟩
  · rw [hcells, take_eq_of_le (Nat.le_add_right _ (size - 1)) (take_splice (by omega)),
      take_splice (by omega), Buffer.take_regrown hpos']
  · intro i byte hge hlt
    rw [hcells, getElem?_splice_of_lt (by omega) (by omega), getElem?_splice_of_ge
      (by rw [List.length_map]; omega) (by rw [List.length_map]; omega)]
    exact Buffer.getElem?_regrown_ne hpos' (by omega) byte

private theorem lt_of_vnprintf {t : TracedBuffer} (ht : t.Growable) {size : ℕ}
    {formatted : List UInt8} (hsize : size < 2 ^ 32) (hfull : t.m_dataLength < t.m_writePos + size)
    {t' : TracedBuffer} (hwrite : after (t.vnprintf size formatted) = .ok t') :
    t.m_dataLength + max size (t.m_dataLength / 4) < 2 ^ 32 := by
  have hpos : t.m_writePos ≤ t.m_dataLength := ht.write.trans ht.valid
  have hword := ht.word
  obtain ⟨n, hwrite⟩ := after_eq_ok.mp hwrite
  simp only [vnprintf, Exec.bind_eq_ok, Prod.exists] at hwrite
  obtain ⟨ok, u, hmake, hwrite⟩ := hwrite
  obtain hgrow | ⟨hle, u', hu, hg⟩ :=
    makeRoom_cases ht.resize ht.sized hword hpos hsize hmake hfull
  · exact hgrow
  · -- the last byte asked for lies behind an area that has shrunk
    obtain ⟨rfl, rfl⟩ := Prod.mk.inj hu
    have hsize : size ≠ 0 := by omega
    simp only [if_true, if_neg hsize, Exec.bind_eq_ok] at hwrite
    obtain ⟨m_data, hstore, m_data', hstore', -⟩ := hwrite
    have hfits := Buffer.le_of_store (by simp) hstore
    obtain ⟨m_data₁, hstore₁, hstored⟩ := Buffer.store_splice hfits
    obtain rfl := Exec.unique hstore hstore₁
    have hfits' := Buffer.le_of_store (by simp) hstore'
    have hsized : (u.m_data.getD []).length = u.m_dataLength := hg.sized
    have hlength := hg.dataLength
    rw [hstored, length_splice (by rwa [List.length_map]), List.length_singleton, hsized,
      hg.writePos] at hfits'
    omega

/-- **A formatted string that grows keeps the content** exactly if the new length is a word and
the string reaches up to the last valid byte. -/
private theorem keepsContent_vnprintf_iff (hb : b.Growable) (size : UInt32) (formatted : List UInt8)
    (hfull : b.m_dataLength < b.m_writePos + size.toNat) :
    KeepsContent b (.vnprintf size formatted) ↔
      b.m_dataLength + max size.toNat (b.m_dataLength / 4) < 2 ^ 32 ∧
        b.m_validBytes ≤ b.m_writePos + min (formatted.length + 1) size.toNat := by
  have hvalid := hb.valid
  constructor
  · rintro ⟨t, hop, hkept, -⟩
    have hgrow := lt_of_vnprintf (t := b.traced) hb size.toNat_lt hfull hop
    refine ⟨hgrow, ?_⟩
    obtain ⟨t', hop', -, -, hlost⟩ := vnprintf_grown (t := b.traced) hb formatted hfull hgrow
    obtain rfl := Exec.unique hop hop'
    by_contra hlt
    have hi : b.m_writePos + min (formatted.length + 1) size.toNat < b.m_validBytes := by omega
    obtain ⟨byte, hbyte⟩ := hb.defined.getElem? hi
    refine hlost _ byte le_rfl ?_ ((hkept _ hi ?_).trans hbyte)
    · change b.m_writePos + min (formatted.length + 1) size.toNat + 1 <
        b.m_writePos + size.toNat
      omega
    · rintro (⟨-, hlt⟩ | hlast)
      · omega
      · omega
  · rintro ⟨hgrow, hshort⟩
    obtain ⟨t, hop, htake, hvalid', -⟩ :=
      vnprintf_grown (t := b.traced) hb formatted hfull hgrow
    exact keepsContent_of_take rfl (fun i hi hge => .inl ⟨hge, by omega⟩) hop htake hvalid'

end Write

/-! ## `reserve` -/

/-- What `reserve` does: it grows the area by so much, or nothing where that is negative. -/
private theorem perform_reserve (b : Buffer) (size : { size : ℕ // size < 2 ^ 31 }) :
    (BufferGrowth.reserve size).perform b.traced =
      if int32 (b.reserveAmount size.val) < 0 then .ok b.traced
      else after (b.traced.enlargeData (b.reserveAmount size.val)) :=
  reserve_eq b.traced size.val

/-- What growing leaves, once it is known to fit. -/
private theorem enlargeData_regrown {b : Buffer} (hb : b.Growable) {amount : ℕ}
    (hfits : b.m_writePos ≤ b.grownLength amount) :
    ∃ t, after (b.traced.enlargeData amount) = .ok t ∧
      t.area = Buffer.regrown b.area b.m_writePos (b.grownLength amount) ∧
      t.m_validBytes = b.m_validBytes ∧ t.m_dataLength = b.grownLength amount := by
  have hpos := hb.write.trans hb.valid
  obtain ⟨t, hgrow, hg, -⟩ :=
    TracedBuffer.enlargeData_of_le (t := b.traced) hb.resize hb.sized hpos hfits
  refine ⟨t, after_eq_ok.mpr ⟨_, hgrow⟩, ?_, hg.validBytes, hg.dataLength⟩
  rw [TracedBuffer.enlargeData, Exec.bind_eq_ok] at hgrow
  obtain ⟨⟨ok, u⟩, hgrow, hres⟩ := hgrow
  obtain ⟨-, rfl⟩ := Prod.mk.inj (Except.ok.inj hres)
  exact Buffer.enlargeData_area hb.resize hb.sized hpos hgrow

private theorem keepsContent_reserve_iff {b : Buffer} (hb : b.Growable)
    (size : { size : ℕ // size < 2 ^ 31 }) :
    KeepsContent b (.reserve size) ↔
      if int32 (b.reserveAmount size.val) < 0 then size.val ≤ b.m_dataLength
      else b.m_writePos = b.m_validBytes ∧
        b.m_validBytes ≤ b.grownLength (b.reserveAmount size.val) ∧
        size.val ≤ b.grownLength (b.reserveAmount size.val) := by
  have hreserve := perform_reserve b size
  have hpos := hb.write.trans hb.valid
  have hpos' : b.m_writePos ≤ b.area.length := hb.length_area ▸ hpos
  by_cases hneg : int32 (b.reserveAmount size.val) < 0
  · rw [if_pos hneg] at hreserve ⊢
    constructor
    · rintro ⟨t, hop, -, -, hcapacity⟩
      obtain rfl := Exec.unique hop hreserve
      exact hcapacity
    · intro hle
      exact ⟨b.traced, hreserve, fun _ _ _ => rfl, le_rfl, hle⟩
  · rw [if_neg hneg] at hreserve ⊢
    constructor
    · rintro ⟨t, hop, hkept, -, hcapacity⟩
      obtain ⟨ok, hgrow⟩ := after_eq_ok.mp (hreserve.symm.trans hop)
      have hfits := le_of_enlargeData (t := b.traced) hb.resize hb.sized hpos hgrow
      obtain ⟨t', hop', harea, -, hlength⟩ := enlargeData_regrown hb hfits
      obtain rfl := Except.ok.inj (hop.symm.trans (hreserve.trans hop'))
      have hall : b.m_writePos = b.m_validBytes := by
        refine hb.write.antisymm (Nat.le_of_not_lt fun hlt => ?_)
        obtain ⟨byte, hbyte⟩ := hb.defined.getElem? hlt
        have hcell := (hkept _ hlt not_false).trans hbyte
        rw [harea] at hcell
        exact Buffer.getElem?_regrown_ne hpos' le_rfl byte hcell
      exact ⟨hall, hall ▸ hfits, hlength ▸ hcapacity⟩
    · rintro ⟨hall, hfits, hle⟩
      obtain ⟨t, hop, harea, hvalid, hlength⟩ := enlargeData_regrown hb (hall ▸ hfits)
      refine ⟨t, hreserve.trans hop, fun i hi _ => ?_, hvalid.ge, hlength ▸ hle⟩
      apply Buffer.getElem?_of_take _ (hall ▸ hi)
      rw [harea, Buffer.take_regrown hpos']

/-- When `reserve` grows, and to what length. -/
private theorem reserve_arith {length pos valid size : ℕ} (hsize : size < 2 ^ 31)
    (hword : length < 2 ^ 32) (hvalid : valid ≤ length) {amount : ℕ}
    (hamount : amount = (((size : ℤ) - length + 3) % 2 ^ 32).toNat / 4 * 4) :
    (if int32 amount < 0 then size ≤ length
      else pos = valid ∧ valid ≤ add32 length (max amount (length / 4)) ∧
        size ≤ add32 length (max amount (length / 4))) ↔
    if length ≤ size + 3 then size + 3 < length + 2 ^ 31 ∧ pos = valid
      else length ≤ size + 3 + 2 ^ 31 ∨ pos = valid ∧
        valid + 2 ^ 32 ≤
          length + max ((2 ^ 32 + size + 3 - length) / 4 * 4) (length / 4) := by
  have hneg : int32 amount < 0 ↔ 2 ^ 31 ≤ amount := by
    rw [int32]
    split <;> omega
  simp only [hneg]
  by_cases hle : length ≤ size + 3
  · have hgap : amount = (size + 3 - length) / 4 * 4 := by omega
    rw [if_pos hle]
    by_cases hlarge : 2 ^ 31 ≤ amount
    · rw [if_pos hlarge]
      omega
    · rw [if_neg hlarge]
      have hadd : add32 length (max amount (length / 4)) = length + max amount (length / 4) :=
        add32_of_lt (by omega)
      rw [hadd]
      omega
  · have hgap : amount = (2 ^ 32 + size + 3 - length) / 4 * 4 := by omega
    rw [if_neg hle, ← hgap]
    by_cases hlarge : 2 ^ 31 ≤ amount
    · rw [if_pos hlarge]
      omega
    · rw [if_neg hlarge]
      have hadd : add32 length (max amount (length / 4)) =
          length + max amount (length / 4) - 2 ^ 32 := by
        rw [add32]
        omega
      rw [hadd]
      omega

/-! ## Every operation -/

/-- **Growing keeps the content exactly under its condition.** -/
theorem keepsContent_iff {b : Buffer} (hb : b.Growable) (op : BufferGrowth) (hgrows : op.Grows b) :
    KeepsContent b op ↔ op.Keeps b := by
  cases op with
  | reserve size =>
    exact (keepsContent_reserve_iff hb size).trans
      (reserve_arith size.property hb.word hb.valid rfl)
  | write value => exact keepsContent_write_iff hb value hgrows
  | writeNextBuffer data =>
    obtain ⟨data, ⟨hdata, hdef⟩, hmax⟩ := data
    have hvalid := hdata.valid
    change b.m_dataLength < b.m_writePos + data.m_validBytes at hgrows
    rw [maxObject] at hmax
    obtain ⟨-, hlen⟩ := hdef.readBytes (by omega)
    refine keepsContent_writeNext_iff hb
      (congrArg after (writeNextBuffer_eq hdef (by omega) b.traced)) rfl ?_ ?_ ?_ ?_
    · intro i hge hlt
      rw [hlen] at hlt
      exact ⟨hge, hlt⟩
    · simp only [align32, add32]
      omega
    · intro _
      change _ ≤ align32 data.m_validBytes
      rw [hlen]
      simp only [align32, add32]
      omega
    · rwa [hlen]
  | vnprintf size formatted => exact keepsContent_vnprintf_iff hb size formatted hgrows

/-- A word of memory that is valid up to `valid`, with the write position at `pos`. -/
def wordBuffer (pos valid : ℕ) : Buffer :=
  { Buffer.ofLength 4 with m_writePos := pos, m_validBytes := valid }

theorem growable_wordBuffer {pos valid : ℕ} (hpos : pos ≤ valid) (hvalid : valid ≤ 4) :
    (wordBuffer pos valid).Growable where
  resize := rfl
  sized := Buffer.sized_ofLength 4
  word := show 4 < 2 ^ 32 by decide
  write := hpos
  valid := hvalid
  defined := hvalid

/-- Two bytes written over the last one of four, for which the memory grows. -/
theorem keepsContent_iff_word :
    KeepsContent (wordBuffer 3 4) (.write ⟨.int16 0x0102, by decide⟩) :=
  (keepsContent_iff (growable_wordBuffer (by decide) (by decide))
    (.write ⟨.int16 0x0102, by decide⟩) (show 4 < 3 + 2 by decide)).mpr
    (show 4 + max 4 (4 / 4) < 2 ^ 32 by decide)

/-- **Not every growth keeps the content**: `reserve` loses what is behind a write position that
was moved back. -/
theorem not_forall_keepsContent :
    ¬∀ (b : Buffer) (op : BufferGrowth), b.Growable → op.Grows b → KeepsContent b op := by
  intro h
  obtain ⟨t, hop, hkept, -⟩ := h (wordBuffer 0 1) (.reserve ⟨8, by decide⟩)
    (growable_wordBuffer (by decide) (by decide)) trivial
  have hgrown : (BufferGrowth.reserve ⟨8, by decide⟩).perform (wordBuffer 0 1).traced = .ok
      { (wordBuffer 0 1).traced with
        m_data := some (List.replicate 8 none)
        m_dataLength := 8
        reads := [(0, 0)]
        writes := [(0, 0)] } := by
    decide
  obtain rfl := Exec.unique hop hgrown
  exact absurd (hkept 0 (by decide) not_false) (by decide)

end CppCore.Utils
