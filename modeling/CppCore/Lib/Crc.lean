import Mathlib.Data.List.GetD
import Mathlib.Data.List.Infix
import Mathlib.Data.UInt

/-!
# Cyclic redundancy codes

Remainders modulo a polynomial over the field of two elements.  A sequence of bits is a
polynomial, highest power first; a word of `w` bits is a polynomial of lower degree, and the
generator is `x ^ w` and the polynomial of the word `g`.

## Main definitions

* `push`, `remainder` — one bit behind a remainder, a sequence of bits.
* `remainder_zipWith_xor` — the remainder is linear.
* `getLsbD_remainder` — bits that do not reach the top of the word are not reduced.
* `remainder_ne_of_burst` — an error within as many bits as a word has changes the code.
* `bitsOf` — the bits of bytes, most significant first.
-/

namespace CppCore.Lib

variable {w : ℕ} (g : BitVec w)

/-! ## Remainders -/

/-- The remainder of the bits so far with one more bit. -/
def push (s : BitVec w) (b : Bool) : BitVec w :=
  s.shiftConcat b ^^^ (if s.msb then g else 0#w)

/-- The remainder of a sequence of bits behind those of the remainder `s`. -/
def remainder (s : BitVec w) (bits : List Bool) : BitVec w := bits.foldl (push g) s

@[simp] theorem remainder_nil (s : BitVec w) : remainder g s [] = s := rfl
@[simp] theorem remainder_cons (s : BitVec w) (b : Bool) (bits : List Bool) :
    remainder g s (b :: bits) = remainder g (push g s b) bits := rfl

theorem remainder_append (s : BitVec w) (l₁ l₂ : List Bool) :
    remainder g s (l₁ ++ l₂) = remainder g (remainder g s l₁) l₂ := List.foldl_append

theorem getLsbD_push (s : BitVec w) (b : Bool) {i : ℕ} (hi : i < w) :
    (push g s b).getLsbD i =
      ((if i = 0 then b else s.getLsbD (i - 1)) ^^ (s.msb && g.getLsbD i)) := by
  rw [push, BitVec.getLsbD_xor, BitVec.getLsbD_shiftConcat]
  cases s.msb <;> simp [hi]

/-- One bit more is linear. -/
theorem push_xor (s t : BitVec w) (a b : Bool) :
    push g (s ^^^ t) (a ^^ b) = push g s a ^^^ push g t b := by
  apply BitVec.eq_of_getLsbD_eq
  intro i hi
  rw [BitVec.getLsbD_xor, getLsbD_push g _ _ hi, getLsbD_push g _ _ hi, getLsbD_push g _ _ hi]
  by_cases hzero : i = 0
  · simp only [if_pos hzero, BitVec.msb_xor]
    cases s.msb <;> cases t.msb <;> cases a <;> cases b <;> cases g.getLsbD i <;> rfl
  · simp only [if_neg hzero, BitVec.msb_xor, BitVec.getLsbD_xor]
    cases s.msb <;> cases t.msb <;> cases s.getLsbD (i - 1) <;> cases t.getLsbD (i - 1) <;>
      cases g.getLsbD i <;> rfl

/-- **The remainder is linear.** -/
theorem remainder_zipWith_xor (s t : BitVec w) {l₁ l₂ : List Bool} (h : l₁.length = l₂.length) :
    remainder g (s ^^^ t) (List.zipWith xor l₁ l₂) = remainder g s l₁ ^^^ remainder g t l₂ := by
  induction l₁ generalizing s t l₂ with
  | nil =>
    obtain rfl : l₂ = [] := List.length_eq_zero_iff.mp h.symm
    rfl
  | cons a l₁ ih =>
    cases l₂ with
    | nil => cases h
    | cons b l₂ =>
      simp only [List.zipWith_cons_cons, remainder_cons, push_xor]
      exact ih _ _ (Nat.succ.inj h)

/-- What a remainder adds depends on the number of bits behind it only. -/
theorem remainder_xor (s t : BitVec w) (bits : List Bool) :
    remainder g (s ^^^ t) bits =
      remainder g s bits ^^^ remainder g t (List.replicate bits.length false) := by
  have h := remainder_zipWith_xor g s t
    (List.length_replicate.symm : bits.length = (List.replicate bits.length false).length)
  have hzip : List.zipWith xor bits (List.replicate bits.length false) = bits := by
    apply List.ext_getElem
    · simp
    · intro i _ _
      simp
  rwa [hzip] at h

@[simp] theorem remainder_zero (n : ℕ) : remainder g 0#w (List.replicate n false) = 0#w := by
  induction n with
  | zero => rfl
  | succ n ih =>
    have hpush : push g 0#w false = 0#w := by
      have h := push_xor g 0#w 0#w false false
      simpa using h
    rw [List.replicate_succ, remainder_cons, hpush, ih]

/-- With a constant term in the generator, zeros behind a remainder do not make it vanish. -/
theorem remainder_replicate_false (hg : g.getLsbD 0 = true) {s : BitVec w} (hs : s ≠ 0#w)
    (n : ℕ) : remainder g s (List.replicate n false) ≠ 0#w := by
  induction n generalizing s with
  | zero => exact hs
  | succ n ih =>
    rw [List.replicate_succ, remainder_cons]
    refine ih fun hzero => hs ?_
    have hw : 0 < w := by
      by_contra hle
      rw [BitVec.getLsbD_of_ge g 0 (by omega)] at hg
      cases hg
    have hmsb : s.msb = false := by
      have h := congrArg (fun x : BitVec w => x.getLsbD 0) hzero
      simpa [getLsbD_push g s false hw, hg] using h
    apply BitVec.eq_of_getLsbD_eq
    intro i hi
    rw [BitVec.getLsbD_zero]
    by_cases htop : i + 1 < w
    · have h := congrArg (fun x : BitVec w => x.getLsbD (i + 1)) hzero
      simpa [getLsbD_push g s false htop, hmsb] using h
    · rw [BitVec.msb_eq_getLsbD_last] at hmsb
      rwa [show i = w - 1 by omega]

/-! ## Few bits -/

/-- Bits that do not reach the top of the word are not reduced: the remainder consists of them,
with those of the first remainder in front. -/
theorem getLsbD_remainder {s : BitVec w} {bits : List Bool} (hbits : bits.length ≤ w)
    (hs : ∀ i, w ≤ i + bits.length → s.getLsbD i = false) {i : ℕ} (hi : i < w) :
    (remainder g s bits).getLsbD i =
      if i < bits.length then bits.reverse.getD i false else s.getLsbD (i - bits.length) := by
  induction bits generalizing s with
  | nil => simp
  | cons b bits ih =>
    rw [List.length_cons] at hbits hs
    have hmsb : s.msb = false := by
      rw [BitVec.msb_eq_getLsbD_last]
      exact hs _ (by omega)
    have hpush : ∀ j, j < w →
        (push g s b).getLsbD j = if j = 0 then b else s.getLsbD (j - 1) := by
      intro j hj
      rw [getLsbD_push g s b hj, hmsb, Bool.false_and, Bool.xor_false]
    have hnext : ∀ j, w ≤ j + bits.length → (push g s b).getLsbD j = false := by
      intro j hj
      by_cases hlt : j < w
      · rw [hpush j hlt, if_neg (by omega)]
        exact hs _ (by omega)
      · exact BitVec.getLsbD_of_ge _ _ (by omega)
    rw [remainder_cons, ih (by omega) hnext, List.length_cons, List.reverse_cons]
    by_cases hlt : i < bits.length
    · rw [if_pos hlt, if_pos (by omega), List.getD_append _ _ _ _ (by simpa using hlt)]
    · rw [if_neg hlt, hpush _ (by omega)]
      by_cases heq : i = bits.length
      · rw [if_pos (by omega), if_pos (by omega), List.getD_append_right _ _ _ _ (by simp [heq])]
        simp [heq]
      · rw [if_neg (by omega), if_neg (by omega), Nat.sub_sub]

/-- As many bits as a word has are their own remainder. -/
theorem getLsbD_remainder_zero {bits : List Bool} (hbits : bits.length ≤ w) {i : ℕ}
    (hi : i < w) : (remainder g 0#w bits).getLsbD i = bits.reverse.getD i false := by
  rw [getLsbD_remainder g hbits (fun _ _ => BitVec.getLsbD_zero) hi]
  by_cases hlt : i < bits.length
  · rw [if_pos hlt]
  · rw [if_neg hlt, BitVec.getLsbD_zero, List.getD_eq_default _ _ (by simpa using hlt)]

/-- So many bits have the remainder zero only if none of them is set. -/
theorem remainder_ne_zero {bits : List Bool} (hbits : bits.length ≤ w) (hset : true ∈ bits) :
    remainder g 0#w bits ≠ 0#w := by
  intro hzero
  obtain ⟨i, hi, htrue⟩ := List.mem_iff_getElem.mp (List.mem_reverse.mpr hset)
  rw [List.length_reverse] at hi
  have hbit := getLsbD_remainder_zero g hbits (show i < w by omega)
  rw [hzero, BitVec.getLsbD_zero, List.getD_eq_getElem _ _ (by simpa using hi), htrue] at hbit
  cases hbit

/-! ## Bursts -/

/-- The bits of an error within `w` bits. -/
def IsBurst (w : ℕ) (bits : List Bool) : Prop :=
  ∃ before burst behind, burst.length ≤ w ∧ true ∈ burst ∧
    bits = List.replicate before false ++ burst ++ List.replicate behind false

/-- Leading zeros have no remainder. -/
@[simp] theorem remainder_replicate_append (n : ℕ) (bits : List Bool) :
    remainder g 0#w (List.replicate n false ++ bits) = remainder g 0#w bits := by
  rw [remainder_append, remainder_zero]

/-- The two parts of a burst across the border: the bits of the first one are the lowest of a
word, those of the second one the highest. -/
private theorem remainder_ne_of_split {front back : List Bool} {n : ℕ}
    (hlen : (front ++ back).length ≤ w) (hword : (back ++ List.replicate n false).length = w)
    (hset : true ∈ front ++ back) :
    remainder g 0#w front ≠ remainder g 0#w (back ++ List.replicate n false) := by
  simp only [List.length_append, List.length_replicate] at hlen hword
  intro heq
  have hbit : ∀ i, i < w →
      front.reverse.getD i false = (List.replicate n false ++ back.reverse).getD i false := by
    intro i hi
    have hfront := getLsbD_remainder_zero g (show front.length ≤ w by omega) hi
    have hback := getLsbD_remainder_zero g
      (show (back ++ List.replicate n false).length ≤ w by simp; omega) hi
    rw [List.reverse_append, List.reverse_replicate] at hback
    rw [← hfront, heq, hback]
  rcases List.mem_append.mp hset with hin | hin
  · obtain ⟨i, hi, htrue⟩ := List.mem_iff_getElem.mp (List.mem_reverse.mpr hin)
    have hlow := hbit i (by rw [List.length_reverse] at hi; omega)
    rw [List.getD_eq_getElem _ _ hi, htrue, List.getD_append _ _ _ _
      (by rw [List.length_reverse] at hi; rw [List.length_replicate]; omega)] at hlow
    simp at hlow
  · obtain ⟨i, hi, htrue⟩ := List.mem_iff_getElem.mp (List.mem_reverse.mpr hin)
    have hhigh := hbit (n + i) (by rw [List.length_reverse] at hi; omega)
    rw [List.getD_eq_default _ _ (by rw [List.length_reverse]; omega),
      List.getD_append_right _ _ _ _ (by simp), List.length_replicate, Nat.add_sub_cancel_left,
      List.getD_eq_getElem _ _ hi, htrue] at hhigh
    cases hhigh

/-- **A burst is not the difference of a message and of its code**: of the bits of a message and
of `w` bits behind it the remainders differ. -/
theorem remainder_ne_of_burst (hg : g.getLsbD 0 = true) {message code : List Bool}
    (hcode : code.length = w) (hburst : IsBurst w (message ++ code)) :
    remainder g 0#w message ≠ remainder g 0#w code := by
  obtain ⟨before, burst, behind, hlen, hset, hbits⟩ := hburst
  rcases List.append_eq_append_iff.mp hbits with ⟨inCode, hfront, rfl⟩ | ⟨tail, rfl, hback⟩
  · rcases List.append_eq_append_iff.mp hfront with ⟨inMessage, rfl, rfl⟩ | ⟨gap, hgap, rfl⟩
    · rw [remainder_replicate_append]
      exact remainder_ne_of_split g hlen hcode hset
    · -- the burst does not touch the message
      have hmessage : remainder g 0#w message = 0#w := by
        rw [(List.append_eq_replicate_iff.mp hgap.symm).2.1, remainder_zero]
      rw [hmessage]
      exact (remainder_ne_zero g hcode.le (by simp [hset])).symm
  · -- the burst does not touch the code
    obtain ⟨-, htail, hzeros⟩ := List.append_eq_replicate_iff.mp hback.symm
    rw [hzeros, remainder_zero, remainder_append, remainder_replicate_append, htail]
    exact remainder_replicate_false g hg (remainder_ne_zero g hlen hset) _

/-! ## Bytes -/

/-- The bits of a byte, most significant first. -/
def byteBits (b : UInt8) : List Bool := (List.range 8).map fun i => b.toBitVec.getMsbD i

/-- The bits of bytes, most significant first. -/
def bitsOf (bytes : List UInt8) : List Bool := bytes.flatMap byteBits

@[simp] theorem length_byteBits (b : UInt8) : (byteBits b).length = 8 := by simp [byteBits]

@[simp] theorem bitsOf_nil : bitsOf [] = [] := rfl
@[simp] theorem bitsOf_cons (b : UInt8) (bytes : List UInt8) :
    bitsOf (b :: bytes) = byteBits b ++ bitsOf bytes := rfl

theorem bitsOf_append (l₁ l₂ : List UInt8) : bitsOf (l₁ ++ l₂) = bitsOf l₁ ++ bitsOf l₂ :=
  List.flatMap_append

@[simp] theorem length_bitsOf (bytes : List UInt8) : (bitsOf bytes).length = 8 * bytes.length := by
  induction bytes with
  | nil => rfl
  | cons b bytes ih =>
    rw [bitsOf_cons, List.length_append, ih, length_byteBits, List.length_cons]
    omega

/-- From the end on, the bits of a byte are those of its word. -/
theorem getD_reverse_byteBits (b : UInt8) (i : ℕ) :
    (byteBits b).reverse.getD i false = b.toBitVec.getLsbD i := by
  by_cases hi : i < 8
  · rw [List.getD_eq_getElem _ _ (by simpa using hi)]
    have hsub : 8 - 1 - (8 - 1 - i) = i := by omega
    simp only [byteBits, List.getElem_reverse, List.getElem_map, List.getElem_range,
      List.length_map, List.length_range, BitVec.getMsbD_eq_getLsbD, hsub]
    rw [decide_eq_true (by omega), Bool.true_and]
  · rw [List.getD_eq_default _ _ (by simpa using hi), BitVec.getLsbD_of_ge _ _ (by omega)]

theorem byteBits_xor (a b : UInt8) :
    byteBits (a ^^^ b) = List.zipWith xor (byteBits a) (byteBits b) := by
  simp [byteBits, List.zipWith_map]

/-- **The bits of a combination are the combination of the bits.** -/
theorem bitsOf_zipWith_xor {l₁ l₂ : List UInt8} (h : l₁.length = l₂.length) :
    bitsOf (List.zipWith (· ^^^ ·) l₁ l₂) = List.zipWith xor (bitsOf l₁) (bitsOf l₂) := by
  induction l₁ generalizing l₂ with
  | nil => rfl
  | cons a l₁ ih =>
    cases l₂ with
    | nil => cases h
    | cons b l₂ =>
      rw [List.zipWith_cons_cons, bitsOf_cons, bitsOf_cons, bitsOf_cons, byteBits_xor,
        ih (Nat.succ.inj h), List.zipWith_append (by simp)]

end CppCore.Lib
