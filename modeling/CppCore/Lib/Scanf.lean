import CppCore.Lib.Words
import Mathlib.Data.List.Infix

/-!
# Scanning formatted text

`sscanf` reads a string as its format says, directive by directive, and stops at the first that
fails.  What it has assigned until then is its result; the number of it is what the function
returns.  A list is the string up to its terminator.

ISO C leaves open what is stored for a number that the type of the variable cannot represent.

## Main definitions

* `isspace`, `isdigit`, `isupper`, `isxdigit` — the characters of the C locale.
* `Scanf` — what a library stores for numbers.
* `Directive.read`, `scan` — one directive; a format.
* `size_scan_le` — what is assigned is no longer than the string.
* `scan_append_of_lt`, `scan_chars_append` — where the second part of a format is read.
-/

namespace CppCore.Lib

/-! ## Characters -/

/-- The bytes of an ASCII string. -/
def chars (s : String) : List UInt8 := s.toList.map fun c => UInt8.ofNat c.toNat

/-- `isspace`. -/
def isspace (c : UInt8) : Bool := c == 32 || 9 ≤ c && c ≤ 13

/-- `isdigit`. -/
def isdigit (c : UInt8) : Bool := 48 ≤ c && c ≤ 57

/-- `isupper`. -/
def isupper (c : UInt8) : Bool := 65 ≤ c && c ≤ 90

/-- `isxdigit`. -/
def isxdigit (c : UInt8) : Bool := isdigit c || 65 ≤ c && c ≤ 70 || 97 ≤ c && c ≤ 102

/-- What a C library stores for a number: the number, if it fits the type. -/
structure Scanf where
  /-- `%hu` into an `unsigned short`. -/
  hu : ℤ → UInt16
  /-- `%X` into an `unsigned int`. -/
  X : ℤ → UInt32
  hu_of_fits : ∀ n : UInt16, hu n.toNat = n
  X_of_fits : ∀ n : UInt32, X n.toNat = n

/-- A library that keeps the low bits. -/
def Scanf.truncating : Scanf where
  hu n := UInt16.ofNat (n % 2 ^ 16).toNat
  X n := UInt32.ofNat (n % 2 ^ 32).toNat
  hu_of_fits n := by
    have hlt := n.toNat_lt
    apply UInt16.toNat_inj.mp
    rw [UInt16.toNat_ofNat']
    omega
  X_of_fits n := by
    have hlt := n.toNat_lt
    apply UInt32.toNat_inj.mp
    rw [UInt32.toNat_ofNat']
    omega

namespace Scanf

/-! ## Directives -/

/-- A directive of a format. -/
inductive Directive
  /-- White space: any amount of it, or none. -/
  | space
  /-- A character that has to be there. -/
  | char (c : UInt8)
  /-- `%d`, `%hu`: a decimal number with an optional sign. -/
  | decimal
  /-- `%X`: a hexadecimal number with an optional sign and an optional `0x`. -/
  | hexadecimal
  /-- `%s`: characters that are not white space. -/
  | word
  /-- `%[...]`: characters of a set. -/
  | set (p : UInt8 → Bool)

/-- What a directive assigns. -/
inductive Arg
  | number (n : ℤ)
  | text (s : List UInt8)
  deriving DecidableEq, Repr

/-- The characters of an argument. -/
def Arg.size : Arg → ℕ
  | number _ => 0
  | text s => s.length

/-- White space and other characters of a format. -/
def literal (s : String) : List Directive :=
  (chars s).map fun c => if isspace c then .space else .char c

/-- The value of a digit. -/
def digitValue (c : UInt8) : ℕ :=
  if isdigit c then c.toNat - 48 else if isupper c then c.toNat - 55 else c.toNat - 87

/-- The digits of a base. -/
def isDigitOf (base : ℕ) : UInt8 → Bool := if base = 16 then isxdigit else isdigit

/-- What follows a sign, if there is one. -/
def skipSign (s : List UInt8) : List UInt8 :=
  if s.head? = some 45 ∨ s.head? = some 43 then s.tail else s

/-- What follows a `0x`, if there is one and the base allows it. -/
def skipPrefix (base : ℕ) (s : List UInt8) : List UInt8 :=
  if base = 16 ∧ (chars "0x" <+: s ∨ chars "0X" <+: s) then s.drop 2 else s

/-- One or more digits, and what follows them. -/
def readDigits (base : ℕ) (s : List UInt8) : Option (ℕ × List UInt8) :=
  if s.takeWhile (isDigitOf base) = [] then
    none
  else
    some ((s.takeWhile (isDigitOf base)).foldl (fun n c => base * n + digitValue c) 0,
      s.dropWhile (isDigitOf base))

/-- A number with an optional sign behind white space, and what follows it. -/
def readNumber (base : ℕ) (s : List UInt8) : Option (ℤ × List UInt8) :=
  let s := s.dropWhile isspace
  (readDigits base (skipPrefix base (skipSign s))).map fun r =>
    (if s.head? = some 45 then -(r.1 : ℤ) else r.1, r.2)

/-- One or more characters as an argument, and what follows them. -/
def readText (p : UInt8 → Bool) (s : List UInt8) : Option (Option Arg × List UInt8) :=
  if s.takeWhile p = [] then none else some (some (.text (s.takeWhile p)), s.dropWhile p)

namespace Directive

/-- What a directive assigns, if anything, and what it leaves. -/
def read (s : List UInt8) : Directive → Option (Option Arg × List UInt8)
  | space => some (none, s.dropWhile isspace)
  | char c => if s.head? = some c then some (none, s.tail) else none
  | decimal => (readNumber 10 s).map fun r => (some (.number r.1), r.2)
  | hexadecimal => (readNumber 16 s).map fun r => (some (.number r.1), r.2)
  | word => readText (fun c => !isspace c) (s.dropWhile isspace)
  | set p => readText p s

/-- A directive that assigns. -/
def assigns : Directive → Bool
  | space => false
  | char _ => false
  | _ => true

end Directive

/-- `sscanf`: what is assigned, in order. -/
def scan : List Directive → List UInt8 → List Arg
  | [], _ => []
  | d :: ds, s =>
    match d.read s with
    | none => []
    | some (arg, rest) => arg.toList ++ scan ds rest

/-! ## What a directive reads -/

theorem skipSign_suffix (s : List UInt8) : skipSign s <:+ s := by
  rw [skipSign]
  split
  · exact List.tail_suffix s
  · exact List.suffix_rfl

theorem skipPrefix_suffix (base : ℕ) (s : List UInt8) : skipPrefix base s <:+ s := by
  rw [skipPrefix]
  split
  · exact List.drop_suffix 2 s
  · exact List.suffix_rfl

theorem readNumber_suffix {base : ℕ} {s t : List UInt8} {n : ℤ}
    (h : readNumber base s = some (n, t)) : t <:+ s := by
  obtain ⟨r, hr, heq⟩ := Option.map_eq_some_iff.mp h
  obtain ⟨_, rfl⟩ := Prod.mk.inj heq
  rw [readDigits] at hr
  split at hr
  · cases hr
  · obtain rfl := Option.some.inj hr
    exact (List.dropWhile_suffix _).trans ((skipPrefix_suffix base _).trans
      ((skipSign_suffix _).trans (List.dropWhile_suffix isspace)))

theorem readText_eq_some {p : UInt8 → Bool} {s t : List UInt8} {arg : Option Arg}
    (h : readText p s = some (arg, t)) :
    ∃ w, w ≠ [] ∧ s = w ++ t ∧ arg = some (.text w) := by
  rw [readText] at h
  split at h
  · cases h
  · rename_i hne
    obtain ⟨rfl, rfl⟩ := Prod.mk.inj (Option.some.inj h)
    exact ⟨_, hne, List.takeWhile_append_dropWhile.symm, rfl⟩

namespace Directive

/-- A directive leaves an end of the string. -/
theorem read_suffix {d : Directive} {s t : List UInt8} {arg : Option Arg}
    (h : d.read s = some (arg, t)) : t <:+ s := by
  cases d with
  | space =>
    obtain ⟨_, rfl⟩ := Prod.mk.inj (Option.some.inj h)
    exact List.dropWhile_suffix _
  | char c =>
    rw [read] at h
    split at h
    · obtain ⟨_, rfl⟩ := Prod.mk.inj (Option.some.inj h)
      exact List.tail_suffix s
    · cases h
  | decimal =>
    obtain ⟨r, hr, heq⟩ := Option.map_eq_some_iff.mp h
    obtain ⟨_, rfl⟩ := Prod.mk.inj heq
    exact readNumber_suffix hr
  | hexadecimal =>
    obtain ⟨r, hr, heq⟩ := Option.map_eq_some_iff.mp h
    obtain ⟨_, rfl⟩ := Prod.mk.inj heq
    exact readNumber_suffix hr
  | word =>
    obtain ⟨w, _, heq, _⟩ := readText_eq_some h
    exact List.IsSuffix.trans ⟨w, heq.symm⟩ (List.dropWhile_suffix isspace)
  | set p =>
    obtain ⟨w, _, heq, _⟩ := readText_eq_some h
    exact ⟨w, heq.symm⟩

/-- Only a directive that assigns has an argument. -/
theorem isSome_of_read {d : Directive} {s t : List UInt8} {arg : Option Arg}
    (h : d.read s = some (arg, t)) : arg.isSome = d.assigns := by
  cases d with
  | space =>
    obtain ⟨rfl, _⟩ := Prod.mk.inj (Option.some.inj h)
    rfl
  | char c =>
    rw [read] at h
    split at h
    · obtain ⟨rfl, _⟩ := Prod.mk.inj (Option.some.inj h)
      rfl
    · cases h
  | decimal =>
    obtain ⟨r, _, heq⟩ := Option.map_eq_some_iff.mp h
    obtain ⟨rfl, _⟩ := Prod.mk.inj heq
    rfl
  | hexadecimal =>
    obtain ⟨r, _, heq⟩ := Option.map_eq_some_iff.mp h
    obtain ⟨rfl, _⟩ := Prod.mk.inj heq
    rfl
  | word =>
    obtain ⟨w, _, _, rfl⟩ := readText_eq_some h
    rfl
  | set p =>
    obtain ⟨w, _, _, rfl⟩ := readText_eq_some h
    rfl

/-- An argument and the rest are no longer than the string. -/
theorem size_add_length_le {d : Directive} {s t : List UInt8} {arg : Arg}
    (h : d.read s = some (some arg, t)) : arg.size + t.length ≤ s.length := by
  cases d with
  | space => cases h
  | char c =>
    rw [read] at h
    split at h <;> cases h
  | decimal =>
    obtain ⟨r, hr, heq⟩ := Option.map_eq_some_iff.mp h
    obtain ⟨harg, rfl⟩ := Prod.mk.inj heq
    obtain rfl := Option.some.inj harg
    simpa [Arg.size] using (readNumber_suffix hr).length_le
  | hexadecimal =>
    obtain ⟨r, hr, heq⟩ := Option.map_eq_some_iff.mp h
    obtain ⟨harg, rfl⟩ := Prod.mk.inj heq
    obtain rfl := Option.some.inj harg
    simpa [Arg.size] using (readNumber_suffix hr).length_le
  | word =>
    obtain ⟨w, _, heq, harg⟩ := readText_eq_some h
    obtain rfl := Option.some.inj harg
    have hle := (List.dropWhile_suffix isspace (l := s)).length_le
    rw [heq, List.length_append] at hle
    exact hle
  | set p =>
    obtain ⟨w, _, heq, harg⟩ := readText_eq_some h
    obtain rfl := Option.some.inj harg
    rw [heq, List.length_append]
    exact le_rfl

end Directive

/-! ## What a format reads -/

theorem scan_cons_of_read {d : Directive} {ds : List Directive} {s rest : List UInt8}
    {arg : Option Arg} (h : d.read s = some (arg, rest)) :
    scan (d :: ds) s = arg.toList ++ scan ds rest := by
  rw [scan, h]

theorem scan_cons_of_none {d : Directive} {ds : List Directive} {s : List UInt8}
    (h : d.read s = none) : scan (d :: ds) s = [] := by
  rw [scan, h]

/-- **No more is assigned than is in the string.** -/
theorem size_scan_le (ds : List Directive) (s : List UInt8) :
    ((scan ds s).map Arg.size).sum ≤ s.length := by
  induction ds generalizing s with
  | nil => simp [scan]
  | cons d ds ih =>
    cases h : d.read s with
    | none => simp [scan_cons_of_none h]
    | some r =>
      obtain ⟨arg, rest⟩ := r
      rw [scan_cons_of_read h]
      have hrest := ih rest
      cases arg with
      | none =>
        have hle := (Directive.read_suffix h).length_le
        simpa using hrest.trans hle
      | some arg =>
        have hle := Directive.size_add_length_le h
        simp only [Option.toList_some, List.cons_append, List.nil_append, List.map_cons,
          List.sum_cons]
        omega

/-- A format assigns at most what its directives do. -/
theorem length_scan_le (ds : List Directive) (s : List UInt8) :
    (scan ds s).length ≤ ds.countP Directive.assigns := by
  induction ds generalizing s with
  | nil => simp [scan]
  | cons d ds ih =>
    cases h : d.read s with
    | none => simp [scan_cons_of_none h]
    | some r =>
      obtain ⟨arg, rest⟩ := r
      have hassigns := Directive.isSome_of_read h
      rw [scan_cons_of_read h, List.length_append, List.countP_cons, ← hassigns]
      have hrest := ih rest
      cases arg with
      | none => simpa using hrest
      | some arg =>
        simp only [Option.toList_some, List.length_singleton, Option.isSome_some, if_true]
        omega

/-- **The second part of a format** assigns what it does to an end of the string, if the first
part has assigned all it can. -/
theorem scan_append_of_lt {ds es : List Directive} {s : List UInt8}
    (h : ds.countP Directive.assigns < (scan (ds ++ es) s).length) :
    ∃ t, t <:+ s ∧ scan (ds ++ es) s = scan ds s ++ scan es t := by
  induction ds generalizing s with
  | nil => exact ⟨s, List.suffix_rfl, rfl⟩
  | cons d ds ih =>
    rw [List.cons_append] at h ⊢
    cases hread : d.read s with
    | none => simp [scan_cons_of_none hread] at h
    | some r =>
      obtain ⟨arg, rest⟩ := r
      have hassigns := Directive.isSome_of_read hread
      rw [scan_cons_of_read hread, List.length_append, List.countP_cons] at h
      have hlt : ds.countP Directive.assigns < (scan (ds ++ es) rest).length := by
        rw [← hassigns] at h
        cases arg with
        | none => simpa using h
        | some arg =>
          simp only [Option.isSome_some, if_true, Option.toList_some, List.length_singleton] at h
          omega
      obtain ⟨t, ht, heq⟩ := ih hlt
      refine ⟨t, ht.trans (Directive.read_suffix hread), ?_⟩
      rw [scan_cons_of_read hread, scan_cons_of_read hread, heq, List.append_assoc]

/-- **Characters of a format** are there if anything behind them is assigned. -/
theorem scan_chars_append {w : List UInt8} {ds : List Directive} {s : List UInt8}
    (h : scan (w.map .char ++ ds) s ≠ []) :
    ∃ t, s = w ++ t ∧ scan (w.map .char ++ ds) s = scan ds t := by
  induction w generalizing s with
  | nil => exact ⟨s, rfl, rfl⟩
  | cons c w ih =>
    rw [List.map_cons, List.cons_append] at h ⊢
    cases hread : (Directive.char c).read s with
    | none => exact (h (scan_cons_of_none hread)).elim
    | some r =>
      rw [Directive.read] at hread
      split at hread
      · rename_i hhead
        obtain ⟨s', rfl⟩ := List.head?_eq_some_iff.mp hhead
        have hcons : scan (.char c :: (w.map .char ++ ds)) (c :: s') =
            scan (w.map .char ++ ds) s' := by
          rw [scan, Directive.read, if_pos hhead]
          rfl
        rw [hcons] at h ⊢
        obtain ⟨t, rfl, heq⟩ := ih h
        exact ⟨t, rfl, heq⟩
      · cases hread

end Scanf

end CppCore.Lib
