import CppCore.Utils.BufferOp

/-!
# Reading a buffer stays within its bounds

For every operation that reads, or moves the read position: it stays within the bounds of a
sound buffer under its condition (`good_…`), and only then (`fits_of_…`).

## Main definitions

* `readNext_of_le`, `le_of_readNext` — the typed readers.
* `good_readNextHalves` — the 64-bit readers.
* `good_readNextByteArray`, `good_readNextCharString`, `good_getNextCharStringAlloc`,
  `good_getNextCharString`, `good_jumpReadPosTo` — the others.
-/

namespace CppCore.Utils

open Lib

namespace TracedBuffer

variable {t t' : TracedBuffer} {align : ℕ → ℕ}

/-! ## Typed readers -/

/-- The loop returns when it stays inside the valid bytes. -/
theorem Good.readUntil (h : t.Good) (hset : t.Settled) (stop : UInt8 → Bool) {pos n : ℕ}
    (hpos : pos + n ≤ t.m_validBytes) :
    t.readUntil stop pos n = .ok (takeThrough stop ((t.contents.drop pos).take n)) := by
  have hvalid := h.sound.valid
  rw [hset.readUntil_eq h.sound.sized h.sound.word stop n (by omega), if_pos (.inl (by omega))]

/-- A reader whose aligned position is not past the valid bytes reads there, or nothing. -/
theorem readNext_of_le (h : t.Good) (hset : t.Settled) (n : ℕ)
    (halign : align t.m_readPos ≤ t.m_validBytes) :
    ∃ bytes t', t.readNext align n = .ok (bytes, t') ∧ t'.Good ∧ t'.Settled ∧
      t'.m_validBytes = t.m_validBytes ∧
      t'.m_readPos =
        if t.m_validBytes - align t.m_readPos < n then align t.m_readPos
        else align t.m_readPos + n := by
  have hvalid := h.sound.valid
  have hword := h.sound.word
  have hleft : sub32 t.m_validBytes (align t.m_readPos) = t.m_validBytes - align t.m_readPos :=
    sub32_of_le halign (by omega)
  rw [readNext]
  simp only [hleft]
  by_cases hlt : t.m_validBytes - align t.m_readPos < n
  · rw [if_pos hlt, if_pos hlt]
    exact ⟨[], _, rfl, h.moveRead halign, hset, rfl, rfl⟩
  · have hle : align t.m_readPos + n ≤ t.m_validBytes := by omega
    rw [if_neg hlt, if_neg hlt, Buffer.readBytes, h.readUntil hset _ hle, Exec.ok_bind,
      add32_of_lt (by omega)]
    exact ⟨_, _, rfl, (h.addRead (.inr hle)).moveRead hle, hset, rfl, rfl⟩

theorem good_readNext (h : t.Good) (hset : t.Settled) (n : ℕ)
    (halign : align t.m_readPos ≤ t.m_validBytes) :
    ∃ t', after (t.readNext align n) = .ok t' ∧ t'.Good := by
  obtain ⟨bytes, t', hread, hgood, -⟩ := readNext_of_le h hset n halign
  exact ⟨t', after_eq_ok.mpr ⟨bytes, hread⟩, hgood⟩

/-- Past the valid bytes, the number of bytes left wraps and the reader reads. -/
theorem le_of_readNext (h : t.Good) (halign : align t.m_readPos ≤ t.m_readPos + 3) {n : ℕ}
    (hn : 0 < n ∧ n ≤ 4) {bytes : List UInt8} (hread : t.readNext align n = .ok (bytes, t'))
    (hwithin : t'.WithinBounds) : align t.m_readPos ≤ t.m_validBytes := by
  have hr := h.sound.read
  have hvalid := h.sound.valid
  have hword := h.sound.word
  by_contra hlt
  have hleft : ¬sub32 t.m_validBytes (align t.m_readPos) < n := by
    rw [sub32]
    omega
  simp only [readNext, if_neg hleft, Exec.bind_eq_ok] at hread
  obtain ⟨data, -, hread⟩ := hread
  obtain ⟨-, rfl⟩ := Prod.mk.inj (Except.ok.inj hread)
  have hbelow := (below_cons.mp hwithin.2.2.1).1
  simp only at hbelow
  omega

theorem fits_of_readNext (h : t.Good) (halign : Aligns align) {n : ℕ} (hn : 0 < n ∧ n ≤ 4)
    (hread : after (t.readNext align n) = .ok t') (hwithin : t'.WithinBounds) :
    align t.m_readPos ≤ t.m_validBytes := by
  obtain ⟨bytes, hread⟩ := after_eq_ok.mp hread
  exact le_of_readNext h (halign.le _) hn hread hwithin

theorem good_readNextHalves (h : t.Good) (hset : t.Settled) (halign : Aligns align)
    {half : TracedBuffer → Exec (UInt32 × TracedBuffer)}
    (hhalf : ∀ t, after (half t) = after (t.readNext align 4)) :
    ∃ t', after (t.readNextHalves half) = .ok t' ∧ t'.Good := by
  have hr := h.sound.read
  have hvalid := h.sound.valid
  have hword := h.sound.word
  have hle := halign.le t.m_readPos
  by_cases hlt : sub32 t.m_validBytes t.m_readPos < 8
  · refine ⟨t, ?_, h⟩
    rw [readNextHalves, if_pos hlt]
    rfl
  · rw [sub32_of_le hr (by omega)] at hlt
    have halign₁ : align t.m_readPos ≤ t.m_validBytes := by omega
    obtain ⟨bytes, t₁, hread, h₁, hset₁, hv₁, hpos₁⟩ := readNext_of_le h hset 4 halign₁
    rw [if_neg (by omega)] at hpos₁
    have halign₂ : align t₁.m_readPos ≤ t₁.m_validBytes := by
      rw [hpos₁, halign.again _ (by omega), ← hpos₁]
      exact h₁.sound.read
    obtain ⟨bytes', t₂, hread', h₂, -⟩ := readNext_of_le h₁ hset₁ 4 halign₂
    obtain ⟨high, hhigh⟩ := after_eq_ok.mp ((hhalf t).trans (after_eq_ok.mpr ⟨_, hread⟩))
    obtain ⟨low, hlow⟩ := after_eq_ok.mp ((hhalf t₁).trans (after_eq_ok.mpr ⟨_, hread'⟩))
    refine ⟨t₂, after_eq_ok.mpr ⟨makeInt64 high low, ?_⟩, h₂⟩
    simp only [readNextHalves, sub32_of_le hr (show t.m_validBytes < 2 ^ 32 by omega), if_neg hlt,
      hhigh, hlow, Exec.ok_bind]

/-! ## Byte arrays and strings -/

/-- The signed computation of `readNextByteArray` ends within the valid bytes. -/
private theorem byteArray_count {r v : ℕ} (hr : r ≤ v) (hv : v < 2 ^ 32) {n : ℤ}
    (hn : -2 ^ 31 ≤ n ∧ n < 2 ^ 31) :
    (∃ left, subInt32 (int32 v) (int32 r) = .ok left ∧
        r + ((if left < n then left else n) % 2 ^ 32).toNat ≤ v) ↔
      2 ^ 31 ≤ v - r ∨ 0 ≤ n ∧ (v < 2 ^ 31 ∨ 2 ^ 31 ≤ r) := by
  have hdiff : int32 v - int32 r =
      if v < 2 ^ 31 ∨ 2 ^ 31 ≤ r then (v : ℤ) - r else (v : ℤ) - r - 2 ^ 32 := by
    simp only [int32]
    rw [Nat.mod_eq_of_lt hv, Nat.mod_eq_of_lt (by omega)]
    split <;> split <;> split <;> omega
  simp only [subInt32, hdiff]
  by_cases hsame : v < 2 ^ 31 ∨ 2 ^ 31 ≤ r
  · have hsigned : -2 ^ 31 ≤ (v : ℤ) - r ∧ (v : ℤ) - r < 2 ^ 31 := by omega
    simp only [if_pos hsame, if_pos hsigned, Except.ok.injEq, exists_eq_left']
    split <;> omega
  · simp only [if_neg hsame]
    by_cases hsigned : -2 ^ 31 ≤ (v : ℤ) - r - 2 ^ 32 ∧ (v : ℤ) - r - 2 ^ 32 < 2 ^ 31
    · simp only [if_pos hsigned, Except.ok.injEq, exists_eq_left']
      split <;> omega
    · simp only [if_neg hsigned, reduceCtorEq, false_and, exists_false, false_iff]
      omega

theorem good_readNextByteArray (h : t.Good) (hset : t.Settled) {n : ℤ}
    (hn : -2 ^ 31 ≤ n ∧ n < 2 ^ 31)
    (hfits : 2 ^ 31 ≤ t.m_validBytes - t.m_readPos ∨
      0 ≤ n ∧ (t.m_validBytes < 2 ^ 31 ∨ 2 ^ 31 ≤ t.m_readPos)) :
    ∃ t', after (t.readNextByteArray n) = .ok t' ∧ t'.Good := by
  have hvalid := h.sound.valid
  have hword := h.sound.word
  obtain ⟨left, hleft, hle⟩ := (byteArray_count h.sound.read (by omega) hn).mpr hfits
  simp only [readNextByteArray, hleft, Exec.ok_bind]
  generalize ((if left < n then left else n) % 2 ^ 32).toNat = count at hle
  rw [Buffer.readBytes, h.readUntil hset _ hle, Exec.ok_bind, add32_of_lt (by omega)]
  exact ⟨_, rfl, (h.addRead (.inr hle)).moveRead hle⟩

theorem fits_of_readNextByteArray (h : t.Good) {n : ℤ} (hn : -2 ^ 31 ≤ n ∧ n < 2 ^ 31)
    (hread : after (t.readNextByteArray n) = .ok t') (hwithin : t'.WithinBounds) :
    2 ^ 31 ≤ t.m_validBytes - t.m_readPos ∨
      0 ≤ n ∧ (t.m_validBytes < 2 ^ 31 ∨ 2 ^ 31 ≤ t.m_readPos) := by
  have hr := h.sound.read
  have hvalid := h.sound.valid
  have hword := h.sound.word
  obtain ⟨result, hread⟩ := after_eq_ok.mp hread
  simp only [readNextByteArray, Exec.bind_eq_ok] at hread
  obtain ⟨left, hleft, data, -, hread⟩ := hread
  obtain ⟨-, rfl⟩ := Prod.mk.inj (Except.ok.inj hread)
  have hbelow := (below_cons.mp hwithin.2.2.1).1
  refine (byteArray_count hr (by omega) hn).mp ⟨left, hleft, ?_⟩
  simp only at hbelow
  omega

theorem good_readNextCharString (h : t.Good) (hset : t.Settled) {n : ℕ} (hn : 0 < n)
    (hlt : t.m_readPos < t.m_validBytes) :
    ∃ t', after (t.readNextCharString n) = .ok t' ∧ t'.Good := by
  have hr := h.sound.read
  have hvalid := h.sound.valid
  have hword := h.sound.word
  simp only [readNextCharString, sub32_of_le hr (show t.m_validBytes < 2 ^ 32 by omega)]
  generalize hm :
    (if t.m_validBytes - t.m_readPos < n then t.m_validBytes - t.m_readPos else n) = m
  have hm' : 0 < m ∧ t.m_readPos + m ≤ t.m_validBytes := by
    split at hm <;> omega
  rw [h.readUntil hset _ hm'.2, Exec.ok_bind]
  generalize hdst : takeThrough _ ((t.contents.drop t.m_readPos).take m) = dst
  have hlen : dst.length ≤ m := by
    rw [← hdst]
    exact length_takeThrough_le.trans (List.length_take_le _ _)
  have hi : dst.idxOf 0 ≤ dst.length := List.idxOf_le_length
  have hgood : Good { t with
      m_readPos := add32 t.m_readPos (dst.idxOf 0)
      reads := (t.m_readPos, dst.length) :: t.reads } := by
    rw [add32_of_lt (by omega)]
    apply (h.addRead (.inr ?_)).moveRead ?_
    · omega
    · simp only
      omega
  by_cases hmem : 0 ∈ dst
  · rw [if_pos hmem]
    exact ⟨_, rfl, hgood⟩
  · rw [if_neg hmem, if_neg (by omega)]
    exact ⟨_, rfl, hgood⟩

theorem fits_of_readNextCharString (h : t.Good) {n : ℕ}
    (hread : after (t.readNextCharString n) = .ok t') :
    0 < n ∧ t.m_readPos < t.m_validBytes := by
  have hr := h.sound.read
  have hvalid := h.sound.valid
  have hword := h.sound.word
  by_contra hnot
  have hzero :
      (if t.m_validBytes - t.m_readPos < n then t.m_validBytes - t.m_readPos else n) = 0 := by
    split <;> omega
  simp [readNextCharString, sub32_of_le hr (show t.m_validBytes < 2 ^ 32 by omega), hzero,
    Buffer.readUntil, after, Except.map] at hread

/-- `strlen` ends where there is a NUL byte, after which the string is left. -/
private theorem readUntil_nul (h : t.Good) (hset : t.Settled) {cells : List (Option UInt8)}
    (hdata : t.m_data = some cells) :
    t.readUntil (fun byte => byte = 0) t.m_readPos (cells.length - t.m_readPos + 1) =
      if 0 ∈ t.contents.drop t.m_readPos then
        .ok (takeThrough (fun byte => byte = 0) (t.contents.drop t.m_readPos))
      else .error .outOfBounds := by
  have hr := h.sound.read
  have hvalid := h.sound.valid
  have hsized : cells.length = t.m_dataLength := by simpa [Buffer.Sized, hdata] using h.sound.sized
  have hlen := hset.length_contents h.sound.sized
  have htake : (t.contents.drop t.m_readPos).take (cells.length - t.m_readPos + 1) =
      t.contents.drop t.m_readPos := List.take_of_length_le (by rw [List.length_drop]; omega)
  have hpast : ¬t.m_readPos + (cells.length - t.m_readPos + 1) ≤ t.m_dataLength := by omega
  rw [hset.readUntil_eq h.sound.sized h.sound.word _ _ (by omega), htake]
  simp [hpast, hdata]

theorem good_getNextCharStringAlloc (h : t.Good) (hset : t.Settled)
    (hfits : t.m_data = none ∨ t.HasString) :
    ∃ t', after t.getNextCharStringAlloc = .ok t' ∧ t'.Good := by
  have hvalid := h.sound.valid
  have hword := h.sound.word
  cases hdata : t.m_data with
  | none => exact ⟨t, by simp only [getNextCharStringAlloc, hdata]; rfl, h⟩
  | some cells =>
    have hstring := hfits.resolve_left (by simp [hdata])
    have hmem := List.mem_of_mem_take hstring
    have hidx := (List.mem_take_iff_idxOf_lt hmem).mp hstring
    simp only [getNextCharStringAlloc, hdata, readUntil_nul h hset hdata, if_pos hmem,
      Exec.ok_bind, length_takeThrough hmem]
    rw [add32_of_lt (by omega), ← hdata]
    refine ⟨_, rfl, (h.addRead (.inr ?_)).moveRead ?_⟩
    · omega
    · simp only
      omega

theorem fits_of_getNextCharStringAlloc (h : t.Good) (hset : t.Settled)
    (hread : after t.getNextCharStringAlloc = .ok t') (hwithin : t'.WithinBounds) :
    t.m_data = none ∨ t.HasString := by
  cases hdata : t.m_data with
  | none => exact .inl rfl
  | some cells =>
    right
    obtain ⟨result, hread⟩ := after_eq_ok.mp hread
    simp only [getNextCharStringAlloc, hdata, readUntil_nul h hset hdata] at hread
    by_cases hmem : 0 ∈ t.contents.drop t.m_readPos
    · simp only [if_pos hmem, Exec.ok_bind, length_takeThrough hmem] at hread
      obtain ⟨-, rfl⟩ := Prod.mk.inj (Except.ok.inj hread)
      have hbelow := (below_cons.mp hwithin.2.2.1).1
      simp only at hbelow
      exact (List.mem_take_iff_idxOf_lt hmem).mpr (by omega)
    · simp [if_neg hmem] at hread

theorem good_getNextCharString (h : t.Good) (hset : t.Settled) :
    ∃ t', after t.getNextCharString = .ok t' ∧ t'.Good := by
  have hr := h.sound.read
  have hvalid := h.sound.valid
  have hsearch : t.m_validBytes - t.m_readPos = 0 ∨
      t.m_readPos + (t.m_validBytes - t.m_readPos) ≤ t.m_validBytes := by omega
  by_cases hlt : t.m_readPos < t.m_validBytes
  · have hdata : t.m_data ≠ none := by
      intro hnone
      have hsized := h.sound.sized
      simp only [Buffer.Sized, hnone, Option.getD_none, List.length_nil] at hsized
      omega
    obtain ⟨cells, hcells⟩ := Option.ne_none_iff_exists'.mp hdata
    obtain ⟨bytes, rfl⟩ := hset cells hcells
    have hlen : bytes.length = t.m_dataLength := by
      simpa [Buffer.Sized, hcells] using h.sound.sized
    simp only [getNextCharString, Buffer.getNextCharString, if_pos hlt, hcells, deref, Exec.ok_bind,
      initialized_drop_map_some]
    by_cases hmem : 0 ∈ (bytes.drop t.m_readPos).take (t.m_validBytes - t.m_readPos)
    · have hidx := List.idxOf_lt_length_iff.mpr hmem
      rw [List.length_take] at hidx
      rw [if_pos hmem, Exec.ok_bind, ← hcells]
      exact ⟨_, rfl, (h.addRead hsearch).moveRead (by simp only; omega)⟩
    · have hrange : ((bytes.drop t.m_readPos).take (t.m_validBytes - t.m_readPos)).length =
          t.m_validBytes - t.m_readPos := by
        rw [List.length_take, List.length_drop]
        omega
      rw [if_neg hmem, if_pos hrange, Exec.ok_bind]
      exact ⟨_, rfl, h.addRead hsearch⟩
  · simp only [getNextCharString, Buffer.getNextCharString, if_neg hlt, Exec.ok_bind]
    exact ⟨_, rfl, h.addRead hsearch⟩

theorem good_jumpReadPosTo (h : t.Good) (hset : t.Settled) (value : UInt8) :
    ∃ t', after (t.jumpReadPosTo value) = .ok t' ∧ t'.Good := by
  have hr := h.sound.read
  have hvalid := h.sound.valid
  have hword := h.sound.word
  simp only [jumpReadPosTo]
  rw [h.readUntil hset _ (by omega), Exec.ok_bind]
  generalize hbytes : takeThrough _ _ = bytes
  have hlen : bytes.length ≤ t.m_validBytes - t.m_readPos := by
    rw [← hbytes]
    exact length_takeThrough_le.trans (List.length_take_le _ _)
  have hi : bytes.idxOf value ≤ bytes.length := List.idxOf_le_length
  rw [add32_of_lt (by omega)]
  refine ⟨_, rfl, (h.addRead (.inr ?_)).moveRead ?_⟩
  · omega
  · simp only
    omega

/-! ## Jumps -/

theorem jump_le {b : Buffer} {pos limit : ℕ} (hpos : pos ≤ limit)
    (hlimit : b.m_validBytes ≤ limit) {offset : Int32} (hoffset : offset.toInt ≠ -2 ^ 31) :
    ∃ pos', b.jump pos offset.toInt = .ok pos' ∧ pos' ≤ limit := by
  have hge := offset.le_toInt
  have hlt := offset.toInt_lt
  generalize offset.toInt = offset at *
  rw [Buffer.jump]
  by_cases hneg : offset < 0
  · have hsub : subInt32 0 offset = .ok (0 - offset) := by
      rw [subInt32, if_pos (by omega)]
    rw [if_pos hneg, hsub, Exec.ok_bind]
    refine ⟨_, rfl, ?_⟩
    split <;> omega
  · rw [if_neg hneg]
    by_cases hzero : 0 < offset
    · rw [if_pos hzero]
      refine ⟨_, rfl, ?_⟩
      split <;> omega
    · rw [if_neg hzero]
      exact ⟨pos, rfl, hpos⟩

theorem ne_of_jump {b : Buffer} {pos pos' : ℕ} {offset : ℤ} (hjump : b.jump pos offset = .ok pos') :
    offset ≠ -2 ^ 31 := by
  rintro rfl
  simp [Buffer.jump, subInt32] at hjump

theorem good_jumpReadPos (h : t.Good) {offset : Int32} (hoffset : offset.toInt ≠ -2 ^ 31) :
    ∃ t', after (t.jumpReadPos offset.toInt) = .ok t' ∧ t'.Good := by
  obtain ⟨pos, hjump, hle⟩ := jump_le h.sound.read (Nat.le_refl t.m_validBytes) hoffset
  simp only [jumpReadPos, hjump, Exec.ok_bind]
  exact ⟨_, rfl, h.moveRead hle⟩

theorem good_jumpWritePos (h : t.Good) {offset : Int32} (hoffset : offset.toInt ≠ -2 ^ 31) :
    ∃ t', after (t.jumpWritePos offset.toInt) = .ok t' ∧ t'.Good := by
  obtain ⟨pos, hjump, hle⟩ := jump_le h.sound.write h.sound.valid hoffset
  simp only [jumpWritePos, hjump, Exec.ok_bind]
  exact ⟨_, rfl, h.moveWrite hle⟩

end TracedBuffer

end CppCore.Utils
