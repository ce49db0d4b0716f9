import CppCore.Lib.Scanf

/-!
# Printing formatted text

What a stream writes for numbers: the digits of a base, the letters among them in lower case, and
characters in front of them up to a width.  `sscanf` reads the number that was printed.

## Main definitions

* `isprint` — the characters that can be printed, in the C locale.
* `printNumber`, `setw` — a number; a text that is filled up to a width.
* `readNumber_printNumber`, `readNumber_printHex` — reading a number that was printed.
* `scan_literal` — reading the text of a format.
-/

namespace CppCore.Lib

/-- `isprint`. -/
def isprint (c : UInt8) : Bool := 32 ≤ c && c ≤ 126

namespace Scanf

/-- The character of a digit. -/
def digit (d : ℕ) : UInt8 := UInt8.ofNat d.digitChar.toNat

/-- A number in a base. -/
def printNumber (base n : ℕ) : List UInt8 := (Nat.toDigits base n).map fun c => UInt8.ofNat c.toNat

/-- A text with a character in front of it, as often as it is too short. -/
def setw (width : ℕ) (fill : UInt8) (s : List UInt8) : List UInt8 :=
  List.replicate (width - s.length) fill ++ s

/-! ## Digits -/

/-- A digit has its value. -/
theorem digitValue_digit {d : ℕ} (h : d < 16) : digitValue (digit d) = d := by
  have hall : ∀ d < 16, digitValue (digit d) = d := by decide
  exact hall d h

theorem isDigitOf_digit {base d : ℕ} (hbase : base = 10 ∨ base = 16) (h : d < base) :
    isDigitOf base (digit d) = true := by
  have hten : ∀ d < 10, isDigitOf 10 (digit d) = true := by decide
  have hsixteen : ∀ d < 16, isDigitOf 16 (digit d) = true := by decide
  rcases hbase with rfl | rfl
  · exact hten d h
  · exact hsixteen d h

theorem printNumber_of_lt {base n : ℕ} (h : n < base) : printNumber base n = [digit n] := by
  rw [printNumber, Nat.toDigits_of_lt_base h]
  rfl

theorem printNumber_of_le {base n : ℕ} (hbase : 1 < base) (h : base ≤ n) :
    printNumber base n = printNumber base (n / base) ++ [digit (n % base)] := by
  rw [printNumber, Nat.toDigits_of_base_le hbase h, List.map_append]
  rfl

/-- **Every digit of a number** is one of the base. -/
theorem isDigitOf_of_mem {base : ℕ} (hbase : base = 10 ∨ base = 16) (n : ℕ) :
    ∀ c ∈ printNumber base n, isDigitOf base c = true := by
  have hone : 1 < base := by omega
  induction n using Nat.strongRecOn with
  | ind n ih =>
    rcases lt_or_ge n base with hlt | hle
    · rw [printNumber_of_lt hlt]
      simpa using isDigitOf_digit hbase hlt
    · have hdiv : n / base < n := Nat.div_lt_self (by omega) hone
      have hmod : n % base < base := Nat.mod_lt n (by omega)
      rw [printNumber_of_le hone hle]
      simpa [or_imp, forall_and] using ⟨ih _ hdiv, isDigitOf_digit hbase hmod⟩

theorem printNumber_ne_nil (base n : ℕ) : printNumber base n ≠ [] := by
  rw [printNumber, Ne, List.map_eq_nil_iff]
  exact Nat.toDigits_ne_nil

/-- **The value of the digits** of a number is the number. -/
theorem foldl_printNumber {base : ℕ} (hbase : base = 10 ∨ base = 16) (n : ℕ) :
    (printNumber base n).foldl (fun m c => base * m + digitValue c) 0 = n := by
  have hone : 1 < base := by omega
  induction n using Nat.strongRecOn with
  | ind n ih =>
    rcases lt_or_ge n base with hlt | hle
    · rw [printNumber_of_lt hlt, List.foldl_cons, List.foldl_nil, digitValue_digit (by omega),
        Nat.mul_zero, Nat.zero_add]
    · have hdiv : n / base < n := Nat.div_lt_self (by omega) hone
      have hmod : n % base < base := Nat.mod_lt n (by omega)
      rw [printNumber_of_le hone hle, List.foldl_append, ih _ hdiv, List.foldl_cons, List.foldl_nil,
        digitValue_digit (by omega), Nat.div_add_mod]

/-! ## Reading what was printed -/

theorem takeWhile_append_of_head {p : UInt8 → Bool} {s : List UInt8} (hs : ∀ c ∈ s, p c = true)
    (rest : List UInt8) (hrest : ∀ c ∈ rest.head?, p c = false) :
    (s ++ rest).takeWhile p = s ∧ (s ++ rest).dropWhile p = rest := by
  rw [List.takeWhile_append_of_pos hs, List.dropWhile_append_of_pos hs]
  cases rest with
  | nil => simp
  | cons c rest =>
    have hc : p c = false := hrest c rfl
    simp [hc]

theorem readDigits_printNumber {base : ℕ} (hbase : base = 10 ∨ base = 16) (n : ℕ)
    (rest : List UInt8) (hrest : ∀ c ∈ rest.head?, isDigitOf base c = false) :
    readDigits base (printNumber base n ++ rest) = some (n, rest) := by
  obtain ⟨htake, hdrop⟩ := takeWhile_append_of_head (isDigitOf_of_mem hbase n) rest hrest
  rw [readDigits, htake, if_neg (printNumber_ne_nil base n), hdrop, foldl_printNumber hbase]

/-- A digit is neither white space nor a sign. -/
theorem digit_spec {c : UInt8} (h : isdigit c = true) : isspace c = false ∧ c ≠ 45 ∧ c ≠ 43 := by
  simp only [isdigit, Bool.and_eq_true, decide_eq_true_eq, UInt8.le_iff_toNat_le] at h
  have hlow : (48 : UInt8).toNat = 48 := rfl
  have hhigh : (57 : UInt8).toNat = 57 := rfl
  refine ⟨?_, ?_, ?_⟩
  · have hthirteen : (13 : UInt8).toNat = 13 := rfl
    have hne : c ≠ 32 := by
      rintro rfl
      exact absurd h.1 (by decide)
    simp only [isspace, Bool.or_eq_false_iff, beq_eq_false_iff_ne, Bool.and_eq_false_iff,
      decide_eq_false_iff_not, UInt8.le_iff_toNat_le]
    exact ⟨hne, Or.inr (by omega)⟩
  · rintro rfl
    exact absurd h.1 (by decide)
  · rintro rfl
    exact absurd h.1 (by decide)

/-- A number that begins with a digit has no space or sign in front of it. -/
theorem readNumber_of_head {base : ℕ} {c : UInt8} {s : List UInt8} (h : isdigit c = true) :
    readNumber base (c :: s) =
      (readDigits base (skipPrefix base (c :: s))).map fun r => ((r.1 : ℤ), r.2) := by
  obtain ⟨hspace, hminus, hplus⟩ := digit_spec h
  have hskip : skipSign (c :: s) = c :: s := by
    simp [skipSign, hminus, hplus]
  have hhead : (c :: s).head? ≠ some 45 := by simpa using hminus
  rw [readNumber, List.dropWhile_cons_of_neg (by simp [hspace])]
  simp only [hskip, hhead, if_false]

/-- **A decimal number** is read as it was printed. -/
theorem readNumber_printNumber (n : ℕ) (rest : List UInt8)
    (hrest : ∀ c ∈ rest.head?, isdigit c = false) :
    readNumber 10 (printNumber 10 n ++ rest) = some ((n : ℤ), rest) := by
  obtain ⟨c, s, hcs⟩ := List.exists_cons_of_ne_nil (printNumber_ne_nil 10 n)
  have hdigit : isdigit c = true :=
    isDigitOf_of_mem (Or.inl rfl) n c (by rw [hcs]; exact List.mem_cons_self)
  have hread := readDigits_printNumber (Or.inl rfl) n rest hrest
  rw [hcs, List.cons_append] at hread ⊢
  rw [readNumber_of_head hdigit, skipPrefix, if_neg (by simp), hread]
  rfl

/-- **A hexadecimal number** behind `0x` is read as it was printed. -/
theorem readNumber_printHex (n : ℕ) (rest : List UInt8)
    (hrest : ∀ c ∈ rest.head?, isxdigit c = false) :
    readNumber 16 (chars "0x" ++ printNumber 16 n ++ rest) = some ((n : ℤ), rest) := by
  have hread := readDigits_printNumber (Or.inr rfl) n rest hrest
  have hchars : chars "0x" = [48, 120] := by decide
  rw [hchars, List.cons_append, List.cons_append, readNumber_of_head (by decide), skipPrefix,
    if_pos ⟨rfl, Or.inl (by rw [hchars]; exact ⟨_, rfl⟩)⟩, List.cons_append, List.nil_append]
  change (readDigits 16 (printNumber 16 n ++ rest)).map _ = _
  rw [hread]
  rfl

/-! ## Formats -/

/-- **Text of a format** is read if no white space in it or behind it follows more of it. -/
theorem scan_literal {w : String} (ds : List Directive) {r : List UInt8}
    (hw : (chars w).IsChain fun a b => isspace a = true → isspace b = false)
    (hr : ∀ c ∈ r.head?, isspace c = false) :
    scan (literal w ++ ds) (chars w ++ r) = scan ds r := by
  rw [literal]
  generalize chars w = s at hw ⊢
  induction s with
  | nil => rfl
  | cons c s ih =>
    have hrest := ih hw.of_cons
    rw [List.map_cons, List.cons_append, List.cons_append]
    by_cases hc : isspace c = true
    · have hhead : ∀ d ∈ (s ++ r).head?, isspace d = false := by
        intro d hd
        cases s with
        | nil => exact hr d hd
        | cons b s =>
          obtain rfl := Option.some.inj hd
          exact hw.rel hc
      have hskip : (c :: (s ++ r)).dropWhile isspace = s ++ r := by
        simpa using (takeWhile_append_of_head (List.forall_mem_singleton.mpr hc) (s ++ r) hhead).2
      have hread : Directive.space.read (c :: (s ++ r)) = some (none, s ++ r) := by
        rw [Directive.read, hskip]
      rw [if_pos hc, scan_cons_of_read hread, hrest]
      rfl
    · have hread : (Directive.char c).read (c :: (s ++ r)) = some (none, s ++ r) := by
        simp [Directive.read]
      rw [if_neg hc, scan_cons_of_read hread, hrest]
      rfl

/-- `%d` or `%hu` in front of a number. -/
theorem scan_decimal (n : ℕ) (ds : List Directive) {r : List UInt8}
    (hr : ∀ c ∈ r.head?, isdigit c = false) :
    scan (.decimal :: ds) (printNumber 10 n ++ r) = .number n :: scan ds r := by
  have hread : Directive.decimal.read (printNumber 10 n ++ r) = some (some (.number n), r) := by
    rw [Directive.read, readNumber_printNumber n r hr]
    rfl
  rw [scan_cons_of_read hread]
  rfl

/-- `%X` in front of a number with its `0x`. -/
theorem scan_hexadecimal (n : ℕ) (ds : List Directive) {r : List UInt8}
    (hr : ∀ c ∈ r.head?, isxdigit c = false) :
    scan (.hexadecimal :: ds) (chars "0x" ++ printNumber 16 n ++ r) = .number n :: scan ds r := by
  have hread : Directive.hexadecimal.read (chars "0x" ++ printNumber 16 n ++ r) =
      some (some (.number n), r) := by
    rw [Directive.read, readNumber_printHex n r hr]
    rfl
  rw [scan_cons_of_read hread]
  rfl

/-- `%s` in front of a word. -/
theorem scan_word {c : UInt8} (hc : isspace c = false) (s : List UInt8) :
    ∃ w, scan [.word] (c :: s) = [.text w] := by
  have hword : (c :: s).takeWhile (fun c => !isspace c) ≠ [] := by
    rw [List.takeWhile_cons_of_pos (by simp [hc])]
    exact List.cons_ne_nil _ _
  refine ⟨(c :: s).takeWhile fun c => !isspace c, ?_⟩
  rw [scan, Directive.read, List.dropWhile_cons_of_neg (by simp [hc]), readText, if_neg hword]
  rfl

end Scanf

end CppCore.Lib
