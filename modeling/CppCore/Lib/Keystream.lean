import Mathlib.Data.UInt

/-!
# Keystreams

A text combined bytewise with the output of a generator, whatever its states are.

## Main definitions

* `xorStream` — the combination; `xorStream_xorStream` undoes it.
* `xorStream_zipWith` — an error in a text is the same error in the combination.
-/

namespace CppCore.Lib

universe u
variable {σ : Type u}

/-- A text combined with what a generator puts out from the state `s` on. -/
def xorStream (next : σ → σ) (out : σ → UInt8) : σ → List UInt8 → List UInt8
  | _, [] => []
  | s, b :: bs => (b ^^^ out s) :: xorStream next out (next s) bs

variable (next : σ → σ) (out : σ → UInt8)

@[simp] theorem length_xorStream (s : σ) (bs : List UInt8) :
    (xorStream next out s bs).length = bs.length := by
  induction bs generalizing s with
  | nil => rfl
  | cons b bs ih => simp [xorStream, ih]

/-- What comes behind a text does not change its combination. -/
theorem xorStream_append (s : σ) (bs cs : List UInt8) :
    xorStream next out s (bs ++ cs) =
      xorStream next out s bs ++ xorStream next out (next^[bs.length] s) cs := by
  induction bs generalizing s with
  | nil => rfl
  | cons b bs ih => simp [xorStream, ih]

/-- **The same stream takes itself away again.** -/
@[simp] theorem xorStream_xorStream (s : σ) (bs : List UInt8) :
    xorStream next out s (xorStream next out s bs) = bs := by
  induction bs generalizing s with
  | nil => rfl
  | cons b bs ih => rw [xorStream, xorStream, ih, UInt8.xor_assoc, UInt8.xor_self, UInt8.xor_zero]

/-- **Errors pass through**: the stream depends on the position only. -/
theorem xorStream_zipWith (s : σ) (bs error : List UInt8) :
    xorStream next out s (List.zipWith (· ^^^ ·) bs error) =
      List.zipWith (· ^^^ ·) (xorStream next out s bs) error := by
  induction bs generalizing s error with
  | nil => rfl
  | cons b bs ih =>
    cases error with
    | nil => rfl
    | cons e error =>
      simp only [List.zipWith_cons_cons, xorStream, ih]
      rw [UInt8.xor_assoc, UInt8.xor_comm e, ← UInt8.xor_assoc]

end CppCore.Lib
