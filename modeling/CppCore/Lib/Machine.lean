import Mathlib.Algebra.Group.Int.Defs
import Mathlib.Algebra.Group.Nat.Defs
import Mathlib.Data.List.Infix
import Mathlib.Data.List.TakeWhile

/-!
# Checked execution on a 32-bit machine

What a C++ function does when it stays inside its objects is a value; everything the language
leaves undefined, and every exception it throws, is a `Fault`.  A theorem that a run is `.ok`
therefore says that no byte outside an object was touched, no null pointer followed and no
signed operation overflowed.

The machine is ILP32: `size_t`, `unsigned int` and pointers have 32 bits, so unsigned
arithmetic on lengths and positions is arithmetic on `ℕ` modulo `2 ^ 32`.

## Main definitions

* `Fault`, `Exec` — why a run has no value; a run.
* `byteAt`, `slice`, `deref` — one byte, a range of bytes, a pointer.
* `add32`, `sub32`, `int32`, `subInt32` — unsigned wrapping and signed checked arithmetic.
* `CString`, `cstring`, `strlen` — a NUL-terminated string and the scan for its end.
-/

namespace CppCore.Lib

universe u
variable {α β : Type u}

/-- Why an execution has no value. -/
inductive Fault
  /-- A byte outside an object, or one nobody has written, was read or written. -/
  | outOfBounds
  /-- A null pointer was followed. -/
  | nullPointer
  /-- A signed operation left the range of its type. -/
  | signedOverflow
  /-- A container was asked for more than it can hold. -/
  | lengthError
  /-- A loop was still running when its fuel was used up. -/
  | outOfFuel
  deriving DecidableEq, Repr

/-- The outcome of a C++ computation. -/
abbrev Exec (α : Type u) := Except Fault α

/-- **Inversion of sequencing**: a run of `x` then `f` has a value exactly when both have. -/
theorem Exec.bind_eq_ok {x : Exec α} {f : α → Exec β} {b : β} :
    (x >>= f) = .ok b ↔ ∃ a, x = .ok a ∧ f a = .ok b := by
  cases x <;> simp [bind, Except.bind]

/-- A computation has one outcome. -/
theorem Exec.unique {x : Exec α} {a b : α} (ha : x = .ok a) (hb : x = .ok b) : a = b :=
  Except.ok.inj (ha.symm.trans hb)

theorem Exec.toOption_eq_some {x : Exec α} {a : α} : x.toOption = some a ↔ x = .ok a := by
  cases x <;> simp [Except.toOption]

-- Not by `rfl`: the kernel would compare the two sides by evaluating the computations in them.
@[simp] theorem Exec.ok_bind (a : α) (f : α → Exec β) : ((Except.ok a : Exec α) >>= f) = f a := by
  simp only [bind, Except.bind]

@[simp] theorem Exec.error_bind (e : Fault) (f : α → Exec β) :
    ((Except.error e : Exec α) >>= f) = .error e := by
  simp only [bind, Except.bind]

/-! ## Memory -/

/-- The byte at offset `i` of an object. -/
def byteAt (mem : List UInt8) (i : ℕ) : Exec UInt8 :=
  match mem[i]? with
  | some b => .ok b
  | none => .error .outOfBounds

/-- The `n` bytes from offset `i` of an object. -/
def slice (mem : List UInt8) (i n : ℕ) : Exec (List UInt8) :=
  if i + n ≤ mem.length then .ok ((mem.drop i).take n) else .error .outOfBounds

/-- Follow a pointer; `none` is the null pointer. -/
def deref : Option α → Exec α
  | some a => .ok a
  | none => .error .nullPointer

theorem deref_eq_ok {o : Option α} {a : α} : deref o = .ok a ↔ o = some a := by
  cases o <;> simp [deref]

theorem byteAt_eq_ok {mem : List UInt8} {i : ℕ} {b : UInt8} :
    byteAt mem i = .ok b ↔ mem[i]? = some b := by
  cases h : mem[i]? <;> simp [byteAt, h]

theorem byteAt_of_lt {mem : List UInt8} {i : ℕ} (h : i < mem.length) :
    byteAt mem i = .ok mem[i] := by
  simp [byteAt, h]

theorem slice_eq_ok {mem : List UInt8} {i n : ℕ} {bs : List UInt8} :
    slice mem i n = .ok bs ↔ i + n ≤ mem.length ∧ bs = (mem.drop i).take n := by
  by_cases h : i + n ≤ mem.length
  · simp [slice, h, eq_comm]
  · simp [slice, h]

/-! ## Arithmetic -/

/-- Unsigned addition. -/
def add32 (a b : ℕ) : ℕ := (a + b) % 2 ^ 32

/-- Unsigned subtraction: `a - b` wraps below zero. -/
def sub32 (a b : ℕ) : ℕ := (a + (2 ^ 32 - b % 2 ^ 32)) % 2 ^ 32

theorem add32_of_lt {a b : ℕ} (h : a + b < 2 ^ 32) : add32 a b = a + b := Nat.mod_eq_of_lt h

theorem add32_add32 (a b c : ℕ) : add32 (add32 a b) c = add32 a (b + c) := by
  simp only [add32]
  omega

theorem sub32_of_le {a b : ℕ} (h : b ≤ a) (ha : a < 2 ^ 32) : sub32 a b = a - b := by
  rw [sub32]
  omega

theorem sub32_of_lt {a b : ℕ} (h : a < b) (hb : b ≤ 2 ^ 31) : 2 ^ 31 ≤ sub32 a b := by
  rw [sub32]
  omega

/-- The value of the signed 32-bit integer with the bits of `n`. -/
def int32 (n : ℕ) : ℤ := if n % 2 ^ 32 < 2 ^ 31 then (n % 2 ^ 32 : ℕ) else (n % 2 ^ 32 : ℕ) - 2 ^ 32

/-- Signed subtraction, undefined outside `[-2 ^ 31, 2 ^ 31)`. -/
def subInt32 (a b : ℤ) : Exec ℤ :=
  if -2 ^ 31 ≤ a - b ∧ a - b < 2 ^ 31 then .ok (a - b) else .error .signedOverflow

/-- `a`, rounded up to a multiple of four. -/
def align32 (a : ℕ) : ℕ := add32 a 3 / 4 * 4

/-! ## C strings -/

/-- The bytes of the largest object: a difference of pointers into it is a signed word. -/
def maxObject : ℕ := 2 ^ 31 - 1

/-- The bytes of a C string before its terminator: none of them is NUL, and with the terminator
they fit into an object. -/
def CString := {s : List UInt8 // (0 : UInt8) ∉ s ∧ s.length < maxObject}

instance : DecidableEq CString :=
  inferInstanceAs (DecidableEq {s : List UInt8 // (0 : UInt8) ∉ s ∧ s.length < maxObject})

namespace CString

/-- The string as it stands in memory, terminator included. -/
def bytes (s : CString) : List UInt8 := s.val ++ [0]

/-- The empty string. -/
def empty : CString := ⟨[], by decide⟩

@[simp] theorem length_bytes (s : CString) : s.bytes.length = s.val.length + 1 := by simp [bytes]
@[simp] theorem bytes_empty : empty.bytes = [0] := rfl

/-- The first NUL of a string in memory is its terminator. -/
theorem takeWhile_bytes_append (s : CString) (rest : List UInt8) :
    (s.bytes ++ rest).takeWhile (· ≠ 0) = s.val := by
  rw [bytes, List.append_assoc, List.takeWhile_append_of_pos]
  · simp
  · intro b hb
    have : b ≠ 0 := fun h => s.property.1 (h ▸ hb)
    simpa using this

/-- No NUL byte stands before the terminator. -/
theorem length_le_of_getElem?_eq_zero {s : CString} (rest : List UInt8) {k : ℕ}
    (h : (s.bytes ++ rest)[k]? = some 0) : s.val.length ≤ k := by
  by_contra hlt
  rw [bytes, List.append_assoc, List.getElem?_append_left (by omega)] at h
  exact s.property.1 (List.mem_of_getElem? h)

end CString

/-- The string a pointer to `mem` denotes: what stands before the first NUL byte.  Without one
the scan runs off the object. -/
def cstring (mem : List UInt8) : Exec CString :=
  if h : (0 : UInt8) ∈ mem ∧ (mem.takeWhile (· ≠ 0)).length < maxObject then
    .ok ⟨mem.takeWhile (· ≠ 0), fun h => by simpa using List.mem_takeWhile_imp h, h.2⟩
  else .error .outOfBounds

/-- The length of the string a pointer to `mem` denotes. -/
def strlen (mem : List UInt8) : Exec ℕ := do
  let s ← cstring mem
  .ok s.val.length

/-- The scan over a string in memory finds the string, whatever follows it. -/
theorem cstring_bytes_append (s : CString) (rest : List UInt8) :
    cstring (s.bytes ++ rest) = .ok s := by
  have htake := s.takeWhile_bytes_append rest
  have hok : (0 : UInt8) ∈ s.bytes ++ rest ∧
      ((s.bytes ++ rest).takeWhile (· ≠ 0)).length < maxObject := by
    rw [htake]
    exact ⟨by simp [CString.bytes], s.property.2⟩
  rw [cstring, dif_pos hok]
  exact congrArg Except.ok (Subtype.ext htake)

/-- Memory with a NUL byte in it starts with what stands before the first one. -/
theorem takeWhile_append_nul_prefix {mem : List UInt8} (hmem : (0 : UInt8) ∈ mem) :
    mem.takeWhile (· ≠ 0) ++ [0] <+: mem := by
  obtain ⟨b, tail, hdrop⟩ := List.exists_cons_of_ne_nil (l := mem.dropWhile (· ≠ 0)) (by
    rw [ne_eq, List.dropWhile_eq_nil_iff]
    exact fun hall => by simpa using hall 0 hmem)
  have hb : b = 0 := by
    have := List.head?_dropWhile_not (fun x : UInt8 => decide (x ≠ 0)) mem
    rw [hdrop] at this
    simpa using this
  refine ⟨tail, ?_⟩
  calc mem.takeWhile (· ≠ 0) ++ [0] ++ tail
      = mem.takeWhile (· ≠ 0) ++ (b :: tail) := by simp [hb]
    _ = mem := by rw [← hdrop, List.takeWhile_append_dropWhile]

/-- **A pointer denotes `s` exactly when the memory starts with `s` and its terminator.** -/
theorem cstring_eq_ok {mem : List UInt8} {s : CString} :
    cstring mem = .ok s ↔ s.bytes <+: mem := by
  constructor
  · intro h
    rw [cstring] at h
    split at h
    · rename_i hok
      obtain rfl := Except.ok.inj h
      exact takeWhile_append_nul_prefix hok.1
    · cases h
  · rintro ⟨rest, rfl⟩
    exact cstring_bytes_append s rest

/-- Memory of an object with a NUL byte in it denotes a string. -/
theorem exists_bytes_prefix {mem : List UInt8} (hmem : (0 : UInt8) ∈ mem)
    (hlen : mem.length ≤ maxObject) : ∃ s : CString, s.bytes <+: mem := by
  have hprefix := takeWhile_append_nul_prefix hmem
  have hle := hprefix.length_le
  simp only [List.length_append, List.length_singleton] at hle
  exact ⟨⟨mem.takeWhile (· ≠ 0), fun h => by simpa using List.mem_takeWhile_imp h, by omega⟩,
    hprefix⟩

end CppCore.Lib
