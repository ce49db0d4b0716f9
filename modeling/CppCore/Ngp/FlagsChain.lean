import CppCore.Ngp.NParamBlock

/-!
# The chain of flags words

From protocol version `0xc` on a block starts with flags words, of which every one but the last
has its top bit set.  The constructor skips them in a loop that may end because the chain does or
because the buffer does, and that reads each word through a helper with a sixteen-bit offset.

## Main definitions

* `flagWords`, `chainLength` — the words of a buffer; how many of them announce another one.
* `skipFlags_closed`, `skipFlags_open` — where the loop stops.
* `NParamBlock.FlagsSkipped` — parsing goes on behind the chain, and a buffer that is nothing
  but an open chain is not valid.
* `NParamBlock.flagsSkipped_iff` — the buffers of which this is true.
-/

namespace CppCore.Ngp

open Lib

/-- The complete words of a buffer; up to three bytes are left over. -/
def flagWords : List UInt8 → List UInt32
  | b₀ :: b₁ :: b₂ :: b₃ :: rest => ofBE32 b₀ b₁ b₂ b₃ :: flagWords rest
  | _ => []

/-- The number of words at the front of a buffer which announce that another one follows. -/
def chainLength (bytes : List UInt8) : ℕ :=
  ((flagWords bytes).takeWhile fun w => w &&& 0x80000000 ≠ 0).length

theorem length_flagWords (bytes : List UInt8) : (flagWords bytes).length = bytes.length / 4 := by
  induction bytes using flagWords.induct with
  | case1 b₀ b₁ b₂ b₃ rest ih =>
    rw [flagWords, List.length_cons, ih]
    simp only [List.length_cons]
    omega
  | case2 bytes hshort =>
    have hlt : bytes.length < 4 := by
      by_contra hle
      obtain ⟨b₀, b₁, b₂, b₃, rest, rfl⟩ := exists_eq_header (not_lt.mp hle)
      exact hshort b₀ b₁ b₂ b₃ rest rfl
    have hnil : flagWords bytes = [] := by
      unfold flagWords
      split
      · exact absurd rfl (hshort _ _ _ _ _)
      · rfl
    rw [hnil, Nat.div_eq_of_lt hlt]
    rfl

/-- A word of a buffer is the four bytes at its place. -/
theorem be32_prefix_of_flagWords {bytes : List UInt8} {i : ℕ} {w : UInt32}
    (h : (flagWords bytes)[i]? = some w) : be32 w <+: bytes.drop (4 * i) := by
  induction bytes using flagWords.induct generalizing i with
  | case1 b₀ b₁ b₂ b₃ rest ih =>
    rw [flagWords] at h
    cases i with
    | zero =>
      obtain rfl : ofBE32 b₀ b₁ b₂ b₃ = w := by simpa using h
      rw [be32_ofBE32]
      exact ⟨rest, rfl⟩
    | succ i => exact ih (by simpa using h)
  | case2 bytes hshort =>
    have hnil : flagWords bytes = [] := by
      unfold flagWords
      split
      · exact absurd rfl (hshort _ _ _ _ _)
      · rfl
    simp [hnil] at h

/-- The words of a chain announce another one. -/
theorem set_of_lt_chainLength {bytes : List UInt8} {i : ℕ} (h : i < chainLength bytes) :
    ∃ w, (flagWords bytes)[i]? = some w ∧ w &&& 0x80000000 ≠ 0 := by
  have hsplit := List.takeWhile_append_dropWhile
    (p := fun w : UInt32 => decide (w &&& 0x80000000 ≠ 0)) (l := flagWords bytes)
  obtain ⟨w, hw⟩ : ∃ w,
      ((flagWords bytes).takeWhile fun w => w &&& 0x80000000 ≠ 0)[i]? = some w :=
    ⟨_, List.getElem?_eq_getElem h⟩
  refine ⟨w, ?_, by simpa using List.mem_takeWhile_imp (List.mem_of_getElem? hw)⟩
  rw [← hsplit, List.getElem?_append_left h, hw]

/-- The word that ends a chain does not. -/
theorem clear_of_chainLength_lt {bytes : List UInt8}
    (h : chainLength bytes < (flagWords bytes).length) :
    ∃ w, (flagWords bytes)[chainLength bytes]? = some w ∧ w &&& 0x80000000 = 0 := by
  have hsplit := List.takeWhile_append_dropWhile
    (p := fun w : UInt32 => decide (w &&& 0x80000000 ≠ 0)) (l := flagWords bytes)
  obtain ⟨w, tail, htail⟩ := List.exists_cons_of_ne_nil
    (l := (flagWords bytes).dropWhile fun w => w &&& 0x80000000 ≠ 0) (by
      intro hnil
      rw [hnil, List.append_nil] at hsplit
      rw [chainLength] at h
      rw [hsplit] at h
      omega)
  refine ⟨w, ?_, ?_⟩
  · rw [← hsplit, List.getElem?_append_right (by unfold chainLength; exact le_rfl), htail]
    simp [chainLength]
  · have := List.head?_dropWhile_not (fun w : UInt32 => decide (w &&& 0x80000000 ≠ 0))
      (flagWords bytes)
    rw [htail] at this
    simpa using this

theorem chainLength_le (bytes : List UInt8) : chainLength bytes ≤ (flagWords bytes).length :=
  (List.takeWhile_prefix _).length_le

namespace NParamBlock

/-! ## The loop -/

/-- The helper reads the word at the offset modulo `2 ^ 16`. -/
private theorem getUint32_flagWord {bytes : List UInt8} {i : ℕ} {w : UInt32}
    (h : (flagWords bytes)[i % 2 ^ 14]? = some w) :
    NParam.getUint32FromByteArray bytes (4 * i) = .ok w := by
  have hoffset : NParam.getUint32FromByteArray bytes (4 * i) =
      NParam.getUint32FromByteArray bytes (4 * (i % 2 ^ 14)) := by
    have : 4 * i % 2 ^ 16 = 4 * (i % 2 ^ 14) % 2 ^ 16 := by omega
    simp only [NParam.getUint32FromByteArray, this]
  rw [hoffset]
  exact (NParam.getUint32FromByteArray_eq_ok (by omega)).mpr (be32_prefix_of_flagWords h)

/-- One turn of the loop, with the word it reads. -/
private theorem skipFlags_turn {bytes : List UInt8} (hbound : bytes.length < 2 ^ 31) {i : ℕ}
    (hi : i < (flagWords bytes).length) {tflag w : UInt32} (htflag : tflag &&& 0x80000000 ≠ 0)
    (hw : (flagWords bytes)[i % 2 ^ 14]? = some w) (fuel : ℕ) :
    skipFlags bytes bytes.length (fuel + 1) tflag (4 * i) =
      skipFlags bytes bytes.length fuel w (4 * (i + 1)) := by
  rw [length_flagWords] at hi
  rw [skipFlags, add32_of_lt (by omega), if_pos ⟨htflag, by omega⟩, getUint32_flagWord hw,
    Exec.ok_bind]
  rfl

/-- The loop stops behind a word without the top bit. -/
private theorem skipFlags_clear (bytes : List UInt8) {tflag : UInt32}
    (htflag : tflag &&& 0x80000000 = 0) (fuel pos : ℕ) :
    skipFlags bytes bytes.length (fuel + 1) tflag pos = .ok pos := by
  rw [skipFlags, if_neg fun h => h.1 htflag]

/-- As long as the words it reads have the top bit, the loop runs to the end of the buffer. -/
private theorem skipFlags_to_end {bytes : List UInt8} (hbound : bytes.length < 2 ^ 31)
    {fuel i : ℕ} {tflag : UInt32} (hi : i ≤ (flagWords bytes).length)
    (hfuel : (flagWords bytes).length < fuel + i) (htflag : tflag &&& 0x80000000 ≠ 0)
    (hset : ∀ j, i ≤ j → j < (flagWords bytes).length →
      ∃ w, (flagWords bytes)[j % 2 ^ 14]? = some w ∧ w &&& 0x80000000 ≠ 0) :
    skipFlags bytes bytes.length fuel tflag (4 * i) = .ok (4 * (flagWords bytes).length) := by
  induction fuel generalizing i tflag with
  | zero => omega
  | succ fuel ih =>
    by_cases hend : i = (flagWords bytes).length
    · have hshort : ¬4 * i + 4 ≤ bytes.length := by
        rw [length_flagWords] at hend
        omega
      rw [length_flagWords] at hi
      rw [skipFlags, add32_of_lt (by omega), if_neg fun h => hshort h.2, hend]
    · obtain ⟨w, hw, hwset⟩ := hset i le_rfl (by omega)
      rw [skipFlags_turn hbound (by omega) htflag hw]
      exact ih (by omega) (by omega) hwset fun j hj => hset j (by omega)

/-- As long as the chain goes on the loop follows it, and stops behind its last word. -/
private theorem skipFlags_to_clear {bytes : List UInt8} (hbound : bytes.length < 2 ^ 31)
    {fuel i n : ℕ} {tflag : UInt32} (hi : i ≤ n) (hn : n < (flagWords bytes).length)
    (hshort : n < 2 ^ 14) (hfuel : n + 1 < fuel + i) (htflag : tflag &&& 0x80000000 ≠ 0)
    (hset : ∀ j, j < n → ∃ w, (flagWords bytes)[j]? = some w ∧ w &&& 0x80000000 ≠ 0)
    (hclear : ∃ w, (flagWords bytes)[n]? = some w ∧ w &&& 0x80000000 = 0) :
    skipFlags bytes bytes.length fuel tflag (4 * i) = .ok (4 * (n + 1)) := by
  induction fuel generalizing i tflag with
  | zero => omega
  | succ fuel ih =>
    by_cases hlast : i = n
    · obtain ⟨w, hw, hwclear⟩ := hclear
      rw [← hlast, ← Nat.mod_eq_of_lt (show i < 2 ^ 14 by omega)] at hw
      rw [skipFlags_turn hbound (by omega) htflag hw, ← hlast]
      obtain ⟨fuel, rfl⟩ : ∃ k, fuel = k + 1 := ⟨fuel - 1, by omega⟩
      exact skipFlags_clear bytes hwclear fuel _
    · obtain ⟨w, hw, hwset⟩ := hset i (by omega)
      rw [← Nat.mod_eq_of_lt (show i < 2 ^ 14 by omega)] at hw
      rw [skipFlags_turn hbound (by omega) htflag hw]
      exact ih (by omega) (by omega) hwset

variable {bytes : List UInt8} {flags : UInt32}

/-- A chain of at most `2 ^ 14` words is skipped. -/
theorem skipFlags_closed (hbound : bytes.length < 2 ^ 31)
    (hflags : (flagWords bytes).head? = some flags)
    (hclosed : chainLength bytes < (flagWords bytes).length) (hshort : chainLength bytes < 2 ^ 14) :
    skipFlags bytes bytes.length (bytes.length / 4 + 1) flags 4 =
      .ok (4 * (chainLength bytes + 1)) := by
  have hlength := length_flagWords bytes
  rw [List.head?_eq_getElem?] at hflags
  by_cases hfirst : chainLength bytes = 0
  · obtain ⟨w, hw, hclear⟩ := clear_of_chainLength_lt hclosed
    rw [hfirst, hflags] at hw
    obtain rfl := Option.some.inj hw
    rw [hfirst]
    exact skipFlags_clear bytes hclear _ 4
  · obtain ⟨w, hw, hset⟩ := set_of_lt_chainLength (Nat.pos_of_ne_zero hfirst)
    rw [hflags] at hw
    obtain rfl := Option.some.inj hw
    exact skipFlags_to_clear hbound (i := 1) (by omega) hclosed hshort (by omega) hset
      (fun j hj => set_of_lt_chainLength hj) (clear_of_chainLength_lt hclosed)

/-- A longer chain, or one that does not end, is followed to the end of the buffer: the words
past the sixteen-bit offsets are the first ones over again. -/
theorem skipFlags_open (hbound : bytes.length < 2 ^ 31)
    (hflags : (flagWords bytes).head? = some flags)
    (hopen : chainLength bytes = (flagWords bytes).length ∨ 2 ^ 14 ≤ chainLength bytes) :
    skipFlags bytes bytes.length (bytes.length / 4 + 1) flags 4 =
      .ok (4 * (flagWords bytes).length) := by
  have hlength := length_flagWords bytes
  have hpos : 0 < (flagWords bytes).length := by
    rw [List.length_pos_iff]
    intro hnil
    simp [hnil] at hflags
  have hmod : ∀ j, j < (flagWords bytes).length → j % 2 ^ 14 < chainLength bytes := by
    intro j hj
    have := Nat.mod_lt j (show 0 < 2 ^ 14 by omega)
    have := Nat.mod_le j (2 ^ 14)
    omega
  rw [List.head?_eq_getElem?] at hflags
  obtain ⟨w, hw, hset⟩ := set_of_lt_chainLength (hmod 0 hpos)
  rw [Nat.zero_mod, hflags] at hw
  obtain rfl := Option.some.inj hw
  exact skipFlags_to_end hbound (i := 1) hpos (by omega) hset fun j _ hj =>
    set_of_lt_chainLength (hmod j hj)

/-! ## Blocks behind a chain -/

/-- The first flags word of a buffer. -/
theorem getUint32_flags (hflags : (flagWords bytes).head? = some flags) :
    NParam.getUint32FromByteArray bytes 0 = .ok flags := by
  rw [List.head?_eq_getElem?] at hflags
  exact getUint32_flagWord (i := 0) hflags

/-- There is a flags word only in a buffer of four bytes and more. -/
theorem four_le_of_flags (hflags : (flagWords bytes).head? = some flags) : 4 ≤ bytes.length := by
  have hlength := length_flagWords bytes
  have hpos : 0 < (flagWords bytes).length := by
    rw [List.length_pos_iff]
    intro hnil
    simp [hnil] at hflags
  omega

/-- With the gzip bit clear, what stands behind the position the loop stops at is parsed. -/
theorem ofBuffer_plain (zip : GunzipUtil) (hbound : bytes.length < 2 ^ 31) {protVer : UInt8}
    (hver : 0xc ≤ protVer) (hflags : (flagWords bytes).head? = some flags)
    (hplain : flags &&& 0x1 = 0) {pos : ℕ} (hpos : pos ≤ bytes.length)
    (hskip : skipFlags bytes bytes.length (bytes.length / 4 + 1) flags 4 = .ok pos) :
    ofBuffer zip (some bytes) bytes.length protVer =
      .ok (addRecords ⟨OrderedMultiset.empty, true, flags⟩
        (parseRecords (bytes.drop pos)).1 (parseRecords (bytes.drop pos)).2) := by
  have hfuel : (bytes.length - pos) / 4 + 2 ≤ bytes.length / 4 + 2 := by omega
  have hparse := readRecords_eq (le_refl bytes.length) hbound hpos hfuel
    ⟨OrderedMultiset.empty, true, flags⟩
  rw [List.take_length] at hparse
  rw [ofBuffer, if_pos ⟨hver, four_le_of_flags hflags⟩]
  simp only [deref, Exec.ok_bind, getUint32_flags hflags, hskip, hplain, ne_eq, not_true_eq_false,
    if_false]
  exact hparse

/-- What the chain of flags words in front of a block is for. -/
structure FlagsSkipped (zip : GunzipUtil) (bytes : List UInt8) (protVer : UInt8) : Prop where
  /-- Parsing goes on behind the first word without the top bit: the params are those which the
  bytes there hold as a block of their own. -/
  closed : chainLength bytes < (flagWords bytes).length →
    ∃ (flags : UInt32) (block plain : NParamBlock),
      (flagWords bytes).head? = some flags ∧
      skipFlags bytes bytes.length (bytes.length / 4 + 1) flags 4 =
        .ok (4 * (chainLength bytes + 1)) ∧
      ofBuffer zip (some bytes) bytes.length protVer = .ok block ∧
      ofBuffer zip (some (bytes.drop (4 * (chainLength bytes + 1))))
        (bytes.length - 4 * (chainLength bytes + 1)) 0 = .ok plain ∧
      block.m_params = plain.m_params ∧ block.getValid = plain.getValid
  /-- When every word announces another one the block is not valid. -/
  opened : chainLength bytes = (flagWords bytes).length →
    ∃ block, ofBuffer zip (some bytes) bytes.length protVer = .ok block ∧ block.getValid = false

/-- The chain ends within the sixteen-bit offsets, or at least so late that no param fits behind
it; a chain that does not end at all leaves one to three bytes over. -/
def ChainEnds (bytes : List UInt8) : Prop :=
  (chainLength bytes < (flagWords bytes).length →
    chainLength bytes < 2 ^ 14 ∨ bytes.length < 4 * (chainLength bytes + 1) + 4) ∧
  (chainLength bytes = (flagWords bytes).length → bytes.length % 4 ≠ 0)

instance (bytes : List UInt8) : Decidable (ChainEnds bytes) :=
  inferInstanceAs (Decidable (_ ∧ _))

/-- A chain that ends is skipped exactly if it is not too long for what follows it. -/
private theorem skipFlags_of_closed (hbound : bytes.length < 2 ^ 31)
    (hflags : (flagWords bytes).head? = some flags)
    (hclosed : chainLength bytes < (flagWords bytes).length) :
    skipFlags bytes bytes.length (bytes.length / 4 + 1) flags 4 =
        .ok (4 * (chainLength bytes + 1)) ↔
      chainLength bytes < 2 ^ 14 ∨ bytes.length < 4 * (chainLength bytes + 1) + 4 := by
  have hlength := length_flagWords bytes
  by_cases hshort : chainLength bytes < 2 ^ 14
  · rw [skipFlags_closed hbound hflags hclosed hshort]
    exact iff_of_true rfl (.inl hshort)
  · rw [skipFlags_open hbound hflags (.inr (not_lt.mp hshort)), Except.ok.injEq]
    omega

/-- A buffer that is nothing but an open chain is valid exactly if its words use it up. -/
private theorem ofBuffer_of_open (zip : GunzipUtil) (hbound : bytes.length < 2 ^ 31)
    {protVer : UInt8} (hver : 0xc ≤ protVer) (hflags : (flagWords bytes).head? = some flags)
    (hplain : flags &&& 0x1 = 0) (hopen : chainLength bytes = (flagWords bytes).length) :
    ofBuffer zip (some bytes) bytes.length protVer =
      .ok ⟨OrderedMultiset.empty, decide (bytes.length % 4 = 0), flags⟩ := by
  have hlength := length_flagWords bytes
  have hrest : (bytes.drop (4 * (flagWords bytes).length)).length = bytes.length % 4 := by
    rw [List.length_drop]
    omega
  have hempty : (bytes.drop (4 * (flagWords bytes).length)).isEmpty =
      decide (bytes.length % 4 = 0) := by
    rw [Bool.eq_iff_iff, List.isEmpty_iff_length_eq_zero, hrest, decide_eq_true_iff]
  rw [ofBuffer_plain zip hbound hver hflags hplain (by omega)
    (skipFlags_open hbound hflags (.inl hopen)), parseRecords_of_length_lt (by omega), hempty]
  simp [addRecords]

/-- **Extended flags words are skipped exactly when the chain of them is not too long and, if it
does not end, does not use up the buffer.** -/
theorem flagsSkipped_iff (zip : GunzipUtil) {bytes : List UInt8} (hbound : bytes.length < 2 ^ 31)
    {protVer : UInt8} (hver : 0xc ≤ protVer) {flags : UInt32}
    (hflags : (flagWords bytes).head? = some flags) (hplain : flags &&& 0x1 = 0) :
    FlagsSkipped zip bytes protVer ↔ ChainEnds bytes := by
  have hlength := length_flagWords bytes
  constructor
  · intro h
    refine ⟨fun hclosed => ?_, fun hopen hmod => ?_⟩
    · obtain ⟨flags', -, -, hflags', hskip, -⟩ := h.closed hclosed
      exact (skipFlags_of_closed hbound hflags' hclosed).mp hskip
    · obtain ⟨block, hof, hinvalid⟩ := h.opened hopen
      rw [ofBuffer_of_open zip hbound hver hflags hplain hopen, hmod] at hof
      obtain rfl := Except.ok.inj hof
      simp [getValid] at hinvalid
  · intro h
    refine ⟨fun hclosed => ?_, fun hopen => ?_⟩
    · have hskip := (skipFlags_of_closed hbound hflags hclosed).mpr (h.1 hclosed)
      have hdrop : (bytes.drop (4 * (chainLength bytes + 1))).length =
          bytes.length - 4 * (chainLength bytes + 1) := List.length_drop
      refine ⟨flags, _, _, hflags, hskip,
        ofBuffer_plain zip hbound hver hflags hplain (by omega) hskip,
        ofBuffer_old zip hdrop.ge (by omega) (by decide), ?_⟩
      rw [← hdrop, List.take_length]
      exact ⟨rfl, rfl⟩
    · refine ⟨_, ofBuffer_of_open zip hbound hver hflags hplain hopen, ?_⟩
      simpa [getValid] using h.2 hopen

/-- Two flags words and a param without payload. -/
theorem flagsSkipped_two : FlagsSkipped GunzipUtil.stub
    [0x80, 0, 0, 0, 0, 0, 0, 0, 0, 7, 0, 0] 0xd :=
  (flagsSkipped_iff GunzipUtil.stub (by decide) (by decide) (by decide)
    (by decide : (0x80000000 : UInt32) &&& 0x1 = 0)).mpr (by decide)

/-- A single flags word which announces another one is accepted as a block without params. -/
theorem not_flagsSkipped_single : ¬FlagsSkipped GunzipUtil.stub [0x80, 0, 0, 0] 0xc := by
  intro h
  obtain ⟨block, hof, hinvalid⟩ := h.opened (by decide)
  have hval : ofBuffer GunzipUtil.stub (some [0x80, 0, 0, 0]) 4 0xc =
      .ok ⟨OrderedMultiset.empty, true, 0x80000000⟩ := by decide
  obtain rfl := Exec.unique hof hval
  cases hinvalid

end NParamBlock

end CppCore.Ngp
