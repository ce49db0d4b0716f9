import CppCore.Lib.Printf
import CppCore.Ngp.TextParams

/-!
# Dumping a param as text

`NParam::dump` writes a param on a single line: its id, then a `:` and the payload.  A payload of
characters that can be printed, except `:` and `;`, is written as it is, and a NUL byte at its end
as `.`.  Any other payload is written in hexadecimal digits, followed by a `;` and, if some of its
bytes can be printed, by those bytes with a `.` for each of the others.

The text is ambiguous: a payload that begins with `0x` is read as digits, and one that ends with `.`
as one that ends with NUL.  Of an empty payload there is not even the `:`.

## Main definitions

* `NParam.dump` — the writer.
* `NParam.item` — what it writes when it leaves nothing out.
* `NParam.Recoverable` — the params the reader gets back.
* `NParam.scanParam_eq` — what `sscanf` finds in a text behind an id.
* `NParam.readPayload_item_iff` — which params are read as they were dumped.
-/

namespace CppCore.Ngp

open Lib Scanf

namespace NParam

/-! ## The writer -/

/-- A character that is written as it is. -/
def shown (c : UInt8) : Bool := isprint c && c != 58 && c != 59

/-- `allPrintable` after the loop over the bytes from the `i`-th on. -/
def allPrintable (length : ℕ) : ℕ → List UInt8 → Bool
  | _, [] => true
  | i, c :: cs =>
    (shown c || i + 1 == length && c == 0 && 1 < length) && allPrintable length (i + 1) cs

/-- `setw( 2 ) << uint32( c )` for each byte, with `hex` and `setfill( '0' )`. -/
def hexText (buff : List UInt8) : List UInt8 :=
  buff.flatMap fun c => setw 2 48 (printNumber 16 c.toNat)

/-- A `.` for each byte that is not shown. -/
def dotted (buff : List UInt8) : List UInt8 := buff.map fun c => if shown c then c else 46

/-- `NParam::dump`. -/
def dump (p : NParam) (singleLine : Bool) (maxLen : ℕ) : List UInt8 :=
  let length := p.getLength
  let vector := p.m_buff.take (min length maxLen)
  let allPrintable := allPrintable length 0 vector
  let anyPrintable := vector.any shown
  if !singleLine then
    chars "   ParamID " ++ printNumber 10 p.m_paramID.toNat ++ chars " len " ++
      printNumber 10 length ++ [10]
  else
    printNumber 10 p.m_paramID.toNat ++
      (if !allPrintable then chars ":0x" ++ hexText vector ++ [59] else []) ++
      (if anyPrintable then (if allPrintable then [58] else []) ++ dotted vector else []) ++
      (if maxLen < length then 40 :: printNumber 10 length ++ [41] else [])

/-! ## The format -/

/-- The payload is a text: characters that are shown, perhaps behind them a terminator. -/
def Textual (p : NParam) : Prop :=
  ∃ s, (∀ c ∈ s, shown c = true) ∧ (p.m_buff = s ∨ s ≠ [] ∧ p.m_buff = s ++ [0])

/-- What stands behind the `:` of a payload in digits. -/
def digitsText (buff : List UInt8) : List UInt8 :=
  chars "0x" ++ hexText buff ++ 59 :: if buff.any shown then dotted buff else []

/-- The params that are read as they were written: not empty, and if they are texts, none that
begins with `0x` or ends with `.`. -/
structure Recoverable (p : NParam) : Prop where
  /-- There is a payload. -/
  nonempty : p.m_buff ≠ []
  /-- It does not look like digits. -/
  digits : p.Textual → ¬chars "0x" <+: p.m_buff
  /-- It does not look as if it had a terminator. -/
  terminator : p.Textual → p.m_buff.getLast? ≠ some 46

theorem allPrintable_iff {length i : ℕ} {cs : List UInt8} (hlength : i + cs.length = length) :
    allPrintable length i cs = true ↔
      ∃ s, (∀ c ∈ s, shown c = true) ∧ (cs = s ∨ 1 < length ∧ cs = s ++ [0]) := by
  induction cs generalizing i with
  | nil => simp [allPrintable]
  | cons c cs ih =>
    rw [List.length_cons] at hlength
    rw [allPrintable, Bool.and_eq_true, ih (by omega)]
    constructor
    · rintro ⟨hc, s, hs, hcs⟩
      rw [Bool.or_eq_true] at hc
      rcases hc with hc | hc
      · refine ⟨c :: s, List.forall_mem_cons.mpr ⟨hc, hs⟩, ?_⟩
        rcases hcs with rfl | ⟨hlt, rfl⟩
        · exact Or.inl rfl
        · exact Or.inr ⟨hlt, rfl⟩
      · simp only [Bool.and_eq_true, beq_iff_eq, decide_eq_true_eq] at hc
        obtain ⟨⟨hlast, rfl⟩, hlt⟩ := hc
        have hnil : cs = [] := List.eq_nil_of_length_eq_zero (by omega)
        exact ⟨[], by simp, Or.inr ⟨hlt, by rw [hnil]; rfl⟩⟩
    · rintro ⟨s, hs, rfl | ⟨hlt, heq⟩⟩
      · obtain ⟨hc, hcs⟩ := List.forall_mem_cons.mp hs
        exact ⟨by simp [hc], cs, hcs, Or.inl rfl⟩
      · cases s with
        | nil =>
          obtain ⟨rfl, rfl⟩ := List.cons.inj heq
          refine ⟨?_, [], by simp, Or.inl rfl⟩
          rw [List.length_nil] at hlength
          simp [hlength, hlt]
        | cons d s =>
          obtain ⟨rfl, rfl⟩ := List.cons.inj heq
          obtain ⟨hc, hcs⟩ := List.forall_mem_cons.mp hs
          exact ⟨by simp [hc], s, hcs, Or.inr ⟨hlt, rfl⟩⟩

/-- What stands behind the `:`. -/
def body (p : NParam) : List UInt8 :=
  if allPrintable p.m_buff.length 0 p.m_buff then dotted p.m_buff else digitsText p.m_buff

/-- What `dump` writes when it leaves nothing out. -/
def item (p : NParam) : List UInt8 :=
  printNumber 10 p.m_paramID.toNat ++ if p.m_buff = [] then [] else 58 :: p.body

theorem textual_iff (p : NParam) :
    allPrintable p.m_buff.length 0 p.m_buff = true ↔ p.Textual := by
  rw [allPrintable_iff (Nat.zero_add _), Textual]
  refine exists_congr fun s => and_congr_right fun _ => or_congr_right ?_
  constructor
  · rintro ⟨hlt, heq⟩
    refine ⟨?_, heq⟩
    rintro rfl
    simp [heq] at hlt
  · rintro ⟨hne, heq⟩
    have hpos := List.length_pos_of_ne_nil hne
    refine ⟨?_, heq⟩
    rw [heq, List.length_append, List.length_singleton]
    omega

/-- A text that is not empty has a character that is shown. -/
theorem Textual.any_shown {p : NParam} (h : p.Textual) (hne : p.m_buff ≠ []) :
    p.m_buff.any shown = true := by
  obtain ⟨s, hs, heq⟩ := h
  have hsne : s ≠ [] := by
    rcases heq with rfl | ⟨hsne, -⟩
    · exact hne
    · exact hsne
  obtain ⟨c, t, rfl⟩ := List.exists_cons_of_ne_nil hsne
  have hc := hs c List.mem_cons_self
  rcases heq with heq | ⟨-, heq⟩ <;> simp [heq, hc]

/-- **A dump that leaves nothing out.** -/
theorem dump_eq_item {p : NParam} {maxLen : ℕ} (hmax : p.m_buff.length ≤ maxLen)
    (hlen : p.m_buff.length ≤ 65535) : p.dump true maxLen = p.item := by
  have hlength : p.getLength = p.m_buff.length := Nat.mod_eq_of_lt (by omega)
  have hvector : p.m_buff.take (min p.m_buff.length maxLen) = p.m_buff := by
    rw [min_eq_left hmax, List.take_length]
  simp only [dump, hlength, hvector, Bool.not_true, Bool.false_eq_true, if_false,
    if_neg (not_lt.mpr hmax), List.append_nil, item]
  by_cases hnil : p.m_buff = []
  · simp [hnil, allPrintable]
  · rw [if_neg hnil, body]
    by_cases htext : p.Textual
    · rw [(textual_iff p).mpr htext, htext.any_shown hnil]
      simp
    · have hfalse := Bool.eq_false_iff.mpr fun h => htext ((textual_iff p).mp h)
      rw [hfalse, digitsText]
      have hchars : chars ":0x" = 58 :: chars "0x" := by decide
      cases p.m_buff.any shown <;> simp [hchars]

/-! ## Characters -/

theorem shown_spec {c : UInt8} (h : shown c = true) : c ≠ 58 ∧ c ≠ 10 ∧ c ≠ 0 := by
  simp only [shown, isprint, Bool.and_eq_true, decide_eq_true_eq, bne_iff_ne] at h
  refine ⟨h.1.2, ?_, ?_⟩
  · rintro rfl
    exact absurd h.1.1.1 (by decide)
  · rintro rfl
    exact absurd h.1.1.1 (by decide)

/-- What is written for a byte is neither a `:` nor the end of a line. -/
theorem dotted_spec (buff : List UInt8) : ∀ c ∈ dotted buff, c ≠ 58 ∧ c ≠ 10 := by
  intro c hc
  obtain ⟨b, -, rfl⟩ := List.mem_map.mp hc
  split
  · rename_i hb
    exact ⟨(shown_spec hb).1, (shown_spec hb).2.1⟩
  · decide

/-- A byte is two digits. -/
theorem setw_printNumber (c : UInt8) :
    setw 2 48 (printNumber 16 c.toNat) = [digit (c.toNat / 16), digit (c.toNat % 16)] := by
  have hc := c.toNat_lt
  rcases lt_or_ge c.toNat 16 with hlt | hle
  · rw [printNumber_of_lt hlt, Nat.div_eq_of_lt hlt, Nat.mod_eq_of_lt hlt]
    rfl
  · rw [printNumber_of_le (by decide) hle, printNumber_of_lt (by omega)]
    rfl

theorem hexText_cons (c : UInt8) (buff : List UInt8) :
    hexText (c :: buff) = digit (c.toNat / 16) :: digit (c.toNat % 16) :: hexText buff := by
  rw [hexText, List.flatMap_cons, setw_printNumber]
  rfl

theorem length_hexText (buff : List UInt8) : (hexText buff).length = 2 * buff.length := by
  induction buff with
  | nil => rfl
  | cons c buff ih =>
    rw [hexText_cons, List.length_cons, List.length_cons, List.length_cons, ih]
    omega

theorem isxdigit_hexText (buff : List UInt8) : ∀ c ∈ hexText buff, isxdigit c = true := by
  induction buff with
  | nil => simp [hexText]
  | cons c buff ih =>
    have hc := c.toNat_lt
    rw [hexText_cons]
    exact List.forall_mem_cons.mpr ⟨isDigitOf_digit (Or.inr rfl) (by omega),
      List.forall_mem_cons.mpr ⟨isDigitOf_digit (Or.inr rfl) (by omega), ih⟩⟩

/-- Neither a digit of any base nor one of the other characters is a `:`, white space or a `;`. -/
theorem xdigit_spec {c : UInt8} (h : isxdigit c = true) :
    c ≠ 58 ∧ c ≠ 10 ∧ c ≠ 32 ∧ c ≠ 0 ∧ c ≠ 59 := by
  refine ⟨?_, ?_, ?_, ?_, ?_⟩ <;> rintro rfl <;> exact absurd h (by decide)

theorem body_spec (p : NParam) : ∀ c ∈ p.body, c ≠ 58 ∧ c ≠ 10 := by
  rw [body]
  split
  · exact dotted_spec _
  · intro c hc
    simp only [digitsText, List.mem_append, List.mem_cons] at hc
    rcases hc with (hc | hc) | rfl | hc
    · have hall : ∀ c ∈ chars "0x", c ≠ 58 ∧ c ≠ 10 := by decide +kernel
      exact hall c hc
    · have hx := xdigit_spec (isxdigit_hexText _ c hc)
      exact ⟨hx.1, hx.2.1⟩
    · decide
    · split at hc
      · exact dotted_spec _ c hc
      · cases hc

/-! ## What `sscanf` finds -/

/-- The rest of a line. -/
def restOfLine (r : List UInt8) : List UInt8 := r.takeWhile fun c => c ≠ 10

/-- What is found behind an id and its `:`. -/
def found (paramID : UInt16) (r : List UInt8) : Scanned :=
  let hex := (r.drop 2).takeWhile isxdigit
  let rest := (r.drop 2).dropWhile isxdigit
  if chars "0x" <+: r ∧ hex ≠ [] then
    ⟨paramID, chars "0x" ++ hex,
      1 + if rest.head? = some 59 then (restOfLine rest.tail).length else 0⟩
  else
    ⟨paramID, restOfLine r, 0⟩

theorem found_of_digits {paramID : UInt16} {t : List UInt8} (h : t.takeWhile isxdigit ≠ []) :
    found paramID (chars "0x" ++ t) = ⟨paramID, chars "0x" ++ t.takeWhile isxdigit,
      1 + if (t.dropWhile isxdigit).head? = some 59 then
        (restOfLine (t.dropWhile isxdigit).tail).length else 0⟩ :=
  if_pos ⟨List.prefix_append _ _, h⟩

theorem found_of_not_digits {paramID : UInt16} {r : List UInt8}
    (h : ¬(chars "0x" <+: r ∧ (r.drop 2).takeWhile isxdigit ≠ [])) :
    found paramID r = ⟨paramID, restOfLine r, 0⟩ := if_neg h

/-- An id is found in front of its `:`. -/
theorem scan_id (paramID : UInt16) (ds : List Directive) (r : List UInt8) :
    scan (.decimal :: .char 58 :: ds) (printNumber 10 paramID.toNat ++ 58 :: r) =
      .number paramID.toNat :: scan ds r := by
  rw [scan_decimal paramID.toNat _ (by simp [isdigit])]
  rfl

theorem scan_line (r : List UInt8) :
    scan [line] r = if restOfLine r = [] then [] else [.text (restOfLine r)] := by
  rw [scan, line, Directive.read, readText]
  split
  · rename_i h
    rw [restOfLine]
    split at h
    · rename_i hnil
      rw [if_pos hnil]
    · cases h
  · rename_i arg rest h
    rw [restOfLine]
    split at h
    · cases h
    · rename_i hne
      obtain ⟨rfl, rfl⟩ := Prod.mk.inj (Option.some.inj h)
      rw [if_neg hne]
      rfl

/-- Without `0x` no digits are found. -/
theorem scan_digits_of_not_hex {r : List UInt8} (h : ¬chars "0x" <+: r) (ds : List Directive) :
    scan (.char 48 :: .char 120 :: ds) r = [] := by
  have hchars : chars "0x" = [48, 120] := by decide
  rw [hchars] at h
  cases r with
  | nil => rfl
  | cons a r =>
    by_cases ha : a = 48
    · subst ha
      have hread : (Directive.char 48).read (48 :: r) = some (none, r) := rfl
      rw [scan_cons_of_read hread]
      cases r with
      | nil => rfl
      | cons b r =>
        have hb : b ≠ 120 := by
          rintro rfl
          exact h ⟨r, rfl⟩
        exact scan_cons_of_none (by simp [Directive.read, hb])
    · exact scan_cons_of_none (by simp [Directive.read, ha])

/-- Behind `0x` some digits are found, and a `;`. -/
theorem scan_digits (r : List UInt8) (ds : List Directive) :
    scan (.char 48 :: .char 120 :: .set isxdigit :: .char 59 :: ds) (chars "0x" ++ r) =
      if r.takeWhile isxdigit = [] then [] else
        .text (r.takeWhile isxdigit) :: if (r.dropWhile isxdigit).head? = some 59 then
          scan ds (r.dropWhile isxdigit).tail else [] := by
  have hskip : scan (.char 48 :: .char 120 :: .set isxdigit :: .char 59 :: ds) (chars "0x" ++ r) =
      scan (.set isxdigit :: .char 59 :: ds) r := rfl
  rw [hskip]
  by_cases hnil : r.takeWhile isxdigit = []
  · rw [if_pos hnil]
    exact scan_cons_of_none (by rw [Directive.read, readText, if_pos hnil])
  · have hread : (Directive.set isxdigit).read r =
        some (some (.text (r.takeWhile isxdigit)), r.dropWhile isxdigit) := by
      rw [Directive.read, readText, if_neg hnil]
    rw [if_neg hnil, scan_cons_of_read hread, Option.toList_some, List.singleton_append]
    congr 1
    split
    · rename_i hhead
      have hread : (Directive.char 59).read (r.dropWhile isxdigit) =
          some (none, (r.dropWhile isxdigit).tail) := by
        rw [Directive.read, if_pos hhead]
      exact scan_cons_of_read hread
    · rename_i hhead
      exact scan_cons_of_none (by rw [Directive.read, if_neg hhead])

/-- **What `sscanf` finds** in a text that begins with an id and a `:`. -/
theorem scanParam_eq (lib : Scanf) (paramID : UInt16) (r : List UInt8) :
    scanParam lib (printNumber 10 paramID.toNat ++ 58 :: r) = some (found paramID r) := by
  have hid : lib.hu paramID.toNat = paramID := lib.hu_of_fits paramID
  have hlong : hexFormat ++ [line] =
      .decimal :: .char 58 :: .char 48 :: .char 120 :: .set isxdigit :: .char 59 :: [line] := rfl
  have hshort : hexFormat =
      .decimal :: .char 58 :: .char 48 :: .char 120 :: .set isxdigit :: .char 59 :: [] := rfl
  have hline : lineFormat = .decimal :: .char 58 :: [line] := rfl
  rw [scanParam, hlong, hshort, hline, scan_id, scan_id, scan_id, scan_line]
  by_cases hhead : chars "0x" <+: r
  · obtain ⟨t, rfl⟩ := hhead
    rw [scan_digits, scan_digits, scan_line]
    by_cases hnil : t.takeWhile isxdigit = []
    · have hnot : ¬(chars "0x" <+: chars "0x" ++ t ∧
          ((chars "0x" ++ t).drop 2).takeWhile isxdigit ≠ []) := fun h => h.2 hnil
      rw [if_pos hnil, if_pos hnil, found_of_not_digits hnot]
      by_cases hline : restOfLine (chars "0x" ++ t) = [] <;> simp [hline, hid]
    · rw [if_neg hnil, if_neg hnil, found_of_digits hnil]
      by_cases hhead : (t.dropWhile isxdigit).head? = some 59
      · by_cases hline : restOfLine (t.dropWhile isxdigit).tail = [] <;>
          simp [hhead, hline, scan, hid]
      · simp [hhead, hid]
  · rw [scan_digits_of_not_hex hhead, scan_digits_of_not_hex hhead,
      found_of_not_digits fun h => hhead h.1]
    by_cases hline : restOfLine r = [] <;> simp [hline, hid]

/-! ## How far the cursor is moved -/

/-- The digits of an id. -/
theorem countDigits_eq (paramID : UInt16) :
    countDigits 4 paramID.toNat = (printNumber 10 paramID.toNat).length := by
  have hcount : ∀ k n, n < 10 ^ (k + 1) → countDigits k n = (printNumber 10 n).length := by
    intro k
    induction k with
    | zero =>
      intro n hn
      rw [printNumber_of_lt (by omega), countDigits]
      rfl
    | succ k ih =>
      intro n hn
      rw [countDigits]
      split
      · rename_i hle
        have hdiv : n / 10 < 10 ^ (k + 1) := by omega
        rw [ih _ hdiv, printNumber_of_le (by decide) hle, List.length_append]
        rfl
      · rename_i hlt
        rw [printNumber_of_lt (by omega)]
        rfl
  have hlt := paramID.toNat_lt
  exact hcount 4 _ (by omega)

theorem restOfLine_append {s : List UInt8} (hs : ∀ c ∈ s, c ≠ 10) (r : List UInt8) :
    restOfLine (s ++ r) = s ++ restOfLine r :=
  List.takeWhile_append_of_pos fun c hc => decide_eq_true (hs c hc)

theorem restOfLine_zerox (t : List UInt8) :
    restOfLine (chars "0x" ++ t) =
      chars "0x" ++ t.takeWhile isxdigit ++ restOfLine (t.dropWhile isxdigit) := by
  have hchars : ∀ c ∈ chars "0x", c ≠ 10 := by decide +kernel
  have hdigits : ∀ c ∈ t.takeWhile isxdigit, c ≠ 10 :=
    fun c hc => (xdigit_spec (List.mem_takeWhile_imp hc)).2.1
  rw [restOfLine_append hchars, List.append_assoc, ← restOfLine_append hdigits,
    List.takeWhile_append_dropWhile]

@[simp] theorem paramID_found (paramID : UInt16) (r : List UInt8) :
    (found paramID r).paramID = paramID := by
  simp only [found]
  split <;> rfl

/-- **The cursor is moved past the `:`**, and not past the text and the character behind it. -/
theorem width_found (paramID : UInt16) (r : List UInt8) :
    (printNumber 10 paramID.toNat).length + 1 ≤ (found paramID r).width ∧
      (found paramID r).width ≤
        (printNumber 10 paramID.toNat).length + 1 + (restOfLine r).length + 1 := by
  rw [Scanned.width, paramID_found, countDigits_eq]
  by_cases h : chars "0x" <+: r ∧ (r.drop 2).takeWhile isxdigit ≠ []
  · obtain ⟨⟨t, rfl⟩, hne⟩ := h
    have hdigits : t.takeWhile isxdigit ≠ [] := hne
    rw [found_of_digits hdigits, restOfLine_zerox]
    simp only [List.length_append]
    split
    · rename_i hhead
      obtain ⟨u, hu⟩ := List.head?_eq_some_iff.mp hhead
      rw [hu, List.tail_cons, ← List.singleton_append,
        restOfLine_append (List.forall_mem_singleton.mpr (by decide)), List.length_append,
        List.length_singleton]
      omega
    · omega
  · rw [found_of_not_digits h]
    dsimp only
    omega

/-! ## Reading a param -/

/-- Each turn of the loop takes two characters. -/
theorem length_readHex {data buff r : List UInt8} {fuel pos : ℕ}
    (h : readHex data fuel pos buff = .ok r) :
    2 * r.length ≤ 2 * buff.length + (data.length - pos) := by
  induction fuel generalizing pos buff with
  | zero => cases h
  | succ fuel ih =>
    rw [readHex] at h
    obtain ⟨c, hc, h⟩ := Exec.bind_eq_ok.mp h
    split at h
    · obtain ⟨d, hd, h⟩ := Exec.bind_eq_ok.mp h
      have hlt := (List.getElem?_eq_some_iff.mp (byteAt_eq_ok.mp hd)).1
      have hrest := ih h
      rw [List.length_append, List.length_singleton] at hrest
      omega
    · obtain rfl := Except.ok.inj h
      omega

/-- **The digits of some bytes** are read as those bytes. -/
theorem readHex_hexText (pre buff acc : List UInt8) {fuel : ℕ}
    (hfuel : buff.length < fuel) :
    readHex (pre ++ hexText buff ++ [0]) fuel pre.length acc = .ok (acc ++ buff) := by
  induction buff generalizing pre acc fuel with
  | nil =>
    obtain ⟨fuel, rfl⟩ := Nat.exists_eq_add_of_lt hfuel
    simp [hexText, readHex, byteAt]
  | cons c buff ih =>
    have hc := c.toNat_lt
    obtain ⟨fuel, rfl⟩ : ∃ k, fuel = k + 1 := Nat.exists_eq_succ_of_ne_zero (by omega)
    rw [List.length_cons] at hfuel
    have hhigh := xdigit_spec (isDigitOf_digit (Or.inr rfl) (show c.toNat / 16 < 16 by omega))
    have hvalue : ∀ hi < 16, ∀ lo < 16,
        (hexDigit (digit hi) <<< 4 + hexDigit (digit lo)).toNat = 16 * hi + lo := by decide
    have hbyte : hexDigit (digit (c.toNat / 16)) <<< 4 + hexDigit (digit (c.toNat % 16)) = c := by
      apply UInt8.toNat_inj.mp
      rw [hvalue _ (by omega) _ (by omega), Nat.div_add_mod]
    have hlt : buff.length < fuel := by omega
    have hnext := ih (pre ++ [digit (c.toNat / 16), digit (c.toNat % 16)]) (acc ++ [c]) hlt
    rw [hexText_cons, readHex]
    simp only [byteAt, List.append_assoc, List.cons_append, List.getElem?_append_right,
      le_refl, Nat.sub_self, List.getElem?_cons_zero, Exec.ok_bind, Nat.le_add_right,
      Nat.add_sub_cancel_left, List.getElem?_cons_succ] at hnext ⊢
    rw [if_pos ⟨hhigh.2.2.2.1, hhigh.2.2.2.2⟩, hbyte]
    simpa using hnext

/-- A text begins with `0x` if what is written for it does. -/
theorem prefix_dotted_iff (buff : List UInt8) :
    chars "0x" <+: dotted buff ↔ chars "0x" <+: buff := by
  have hchars : chars "0x" = [48, 120] := by decide
  have hdot : ∀ c : UInt8, ∀ d, d ≠ 46 → shown d = true →
      ((if shown c then c else 46) = d ↔ c = d) := by
    intro c d hne hd
    constructor
    · intro h
      split at h
      · exact h
      · exact absurd h.symm hne
    · rintro rfl
      rw [if_pos hd]
  rw [hchars]
  rcases buff with _ | ⟨a, _ | ⟨b, buff⟩⟩
  · rfl
  · simp [dotted]
  · simp only [dotted, List.map_cons, List.cons_prefix_cons, List.nil_prefix, and_true]
    rw [eq_comm, hdot a 48 (by decide) (by decide), eq_comm (a := (120 : UInt8)),
      hdot b 120 (by decide) (by decide), eq_comm, eq_comm (a := b)]

theorem isHex_iff {x : Scanned} : x.IsHex ↔ chars "0x" <+: x.data := by
  have hchars : chars "0x" = [48, 120] := by decide
  rw [Scanned.IsHex, hchars]
  rcases x.data with _ | ⟨a, _ | ⟨b, data⟩⟩
  · simp
  · simp
  · simp [eq_comm]

/-- What looks like digits is read as fewer bytes. -/
theorem length_readPayload {paramID : UInt16} {r b : List UInt8}
    (hhead : chars "0x" <+: restOfLine r)
    (h : readPayload (found paramID r) [] = .ok b) : b.length < (restOfLine r).length := by
  obtain ⟨u, hu⟩ := hhead
  have htwo : (chars "0x").length = 2 := rfl
  have hlen : 2 ≤ (restOfLine r).length := by
    rw [← hu, List.length_append]
    omega
  have hdata : (found paramID r).IsHex ∧ (found paramID r).data.length ≤ (restOfLine r).length := by
    by_cases hr : chars "0x" <+: r ∧ (r.drop 2).takeWhile isxdigit ≠ []
    · obtain ⟨⟨t, rfl⟩, hne⟩ := hr
      have hdigits : t.takeWhile isxdigit ≠ [] := hne
      rw [found_of_digits hdigits, isHex_iff, restOfLine_zerox]
      refine ⟨List.prefix_append _ _, ?_⟩
      simp only [List.length_append]
      omega
    · rw [found_of_not_digits hr, isHex_iff]
      exact ⟨⟨u, hu⟩, le_rfl⟩
  rw [readPayload, if_pos hdata.1] at h
  have hread := length_readHex h
  rw [List.length_append, List.length_singleton, List.length_nil] at hread
  omega

/-- **The digits of a payload** are read as it was. -/
theorem readPayload_digitsText {paramID : UInt16} {buff tail : List UInt8} (hne : buff ≠ [])
    (htail : restOfLine tail = []) :
    readPayload (found paramID (digitsText buff ++ tail)) [] = .ok buff ∧
      (found paramID (digitsText buff ++ tail)).width =
        (printNumber 10 paramID.toNat).length + 1 + (digitsText buff).length := by
  have hsplit : digitsText buff ++ tail = chars "0x" ++ (hexText buff ++ 59 ::
      ((if buff.any shown then dotted buff else []) ++ tail)) := by
    simp [digitsText]
  obtain ⟨htake, hdrop⟩ := takeWhile_append_of_head (isxdigit_hexText buff)
    (59 :: ((if buff.any shown then dotted buff else []) ++ tail)) (by simp [isxdigit, isdigit])
  have hhex : hexText buff ≠ [] := by
    apply List.ne_nil_of_length_pos
    rw [length_hexText]
    have := List.length_pos_of_ne_nil hne
    omega
  have hline : restOfLine ((if buff.any shown then dotted buff else []) ++ tail) =
      if buff.any shown then dotted buff else [] := by
    rw [restOfLine_append, htail, List.append_nil]
    intro c hc
    split at hc
    · exact (dotted_spec buff c hc).2
    · cases hc
  rw [hsplit, found_of_digits (by rw [htake]; exact hhex), htake, hdrop, List.head?_cons,
    if_pos rfl, List.tail_cons, hline]
  have htwo : (chars "0x").length = 2 := rfl
  constructor
  · have hlt : buff.length < 2 * buff.length + 3 := by omega
    have hread := readHex_hexText (chars "0x") buff [] hlt
    rw [readPayload, if_pos (isHex_iff.mpr (List.prefix_append _ _)), List.length_append,
      length_hexText, htwo, Nat.add_comm 2]
    exact hread
  · rw [Scanned.width, countDigits_eq, digitsText]
    simp only [List.length_append, List.length_cons]
    omega

theorem prefix_restOfLine {r : List UInt8} (h : chars "0x" <+: r) :
    chars "0x" <+: restOfLine r := by
  obtain ⟨t, rfl⟩ := h
  rw [restOfLine_zerox, List.append_assoc]
  exact List.prefix_append _ _

/-- A text that does not look like digits is read as it is, but for a `.` at its end. -/
theorem readPayload_of_not_hex {paramID : UInt16} {r : List UInt8}
    (h : ¬chars "0x" <+: restOfLine r) :
    readPayload (found paramID r) [] = .ok (if (restOfLine r).getLast? = some 46 then
        (restOfLine r).dropLast ++ [0] else restOfLine r) ∧
      (found paramID r).width =
        (printNumber 10 paramID.toNat).length + 1 + (restOfLine r).length := by
  have hnot : ¬(chars "0x" <+: r ∧ (r.drop 2).takeWhile isxdigit ≠ []) :=
    fun hr => h (prefix_restOfLine hr.1)
  have hhex : ¬(⟨paramID, restOfLine r, 0⟩ : Scanned).IsHex := fun hx => h (isHex_iff.mp hx)
  rw [found_of_not_digits hnot, Scanned.width, countDigits_eq, readPayload, if_neg hhex]
  constructor
  · simp only [List.append_nil]
    split <;> rfl
  · dsimp only
    omega

/-- A text whose last `.` is taken for a terminator is the payload, if it does not end with `.`. -/
theorem terminator_iff {p : NParam} (htext : p.Textual) :
    (if (dotted p.m_buff).getLast? = some 46 then (dotted p.m_buff).dropLast ++ [0]
      else dotted p.m_buff) = p.m_buff ↔ p.m_buff.getLast? ≠ some 46 := by
  obtain ⟨s, hs, heq⟩ := htext
  have hself : dotted s = s := by
    rw [dotted, List.map_congr_left fun c hc => if_pos (hs c hc), List.map_id']
  rcases heq with heq | ⟨hsne, heq⟩
  · rw [heq, hself]
    by_cases hlast : s.getLast? = some 46
    · have hzero : (s.dropLast ++ [(0 : UInt8)]).getLast? = some 0 := List.getLast?_concat
      rw [if_pos hlast]
      refine iff_of_false (fun h => ?_) (not_not.mpr hlast)
      rw [h, hlast] at hzero
      exact absurd hzero (by decide)
    · rw [if_neg hlast]
      exact iff_of_true rfl hlast
  · have hdots : dotted (s ++ [0]) = s ++ [46] := by
      have happend : dotted (s ++ [0]) = dotted s ++ dotted [0] := List.map_append
      rw [happend, hself]
      rfl
    rw [heq, hdots, List.getLast?_concat, if_pos rfl, List.dropLast_concat, List.getLast?_concat]
    exact iff_of_true rfl (by decide)

/-- **Which params are read as they were dumped**, at the end of a text or of a line. -/
theorem readPayload_item_iff {p : NParam} (hne : p.m_buff ≠ []) {tail : List UInt8}
    (htail : restOfLine tail = []) :
    readPayload (found p.m_paramID (p.body ++ tail)) [] = .ok p.m_buff ↔ p.Recoverable := by
  by_cases htext : p.Textual
  · have hline : restOfLine (p.body ++ tail) = dotted p.m_buff := by
      rw [body, if_pos ((textual_iff p).mpr htext),
        restOfLine_append fun c hc => (dotted_spec _ c hc).2, htail, List.append_nil]
    by_cases hhead : chars "0x" <+: p.m_buff
    · refine iff_of_false (fun h => ?_) fun h => h.digits htext hhead
      have hlt := length_readPayload (hline ▸ (prefix_dotted_iff _).mpr hhead) h
      rw [hline, dotted, List.length_map] at hlt
      exact lt_irrefl _ hlt
    · have hnot : ¬chars "0x" <+: restOfLine (p.body ++ tail) := by
        rw [hline, prefix_dotted_iff]
        exact hhead
      rw [(readPayload_of_not_hex hnot).1, hline, Except.ok.injEq, terminator_iff htext]
      exact ⟨fun h => ⟨hne, fun _ => hhead, fun _ => h⟩, fun h => h.terminator htext⟩
  · have hbody : p.body = digitsText p.m_buff := if_neg fun h => htext ((textual_iff p).mp h)
    rw [hbody]
    exact iff_of_true (readPayload_digitsText hne htail).1
      ⟨hne, fun h => absurd h htext, fun h => absurd h htext⟩

/-- Behind such a param is the end of its text. -/
theorem width_item {p : NParam} (hp : p.Recoverable) {tail : List UInt8}
    (htail : restOfLine tail = []) :
    (found p.m_paramID (p.body ++ tail)).width = p.item.length := by
  rw [item, if_neg hp.nonempty, List.length_append, List.length_cons]
  by_cases htext : p.Textual
  · have hbody : p.body = dotted p.m_buff := if_pos ((textual_iff p).mpr htext)
    have hline : restOfLine (p.body ++ tail) = p.body := by
      rw [restOfLine_append fun c hc => (body_spec p c hc).2, htail, List.append_nil]
    have hnot : ¬chars "0x" <+: restOfLine (p.body ++ tail) := by
      rw [hline, hbody, prefix_dotted_iff]
      exact hp.digits htext
    rw [(readPayload_of_not_hex hnot).2, hline]
    omega
  · have hbody : p.body = digitsText p.m_buff := if_neg fun h => htext ((textual_iff p).mp h)
    rw [hbody, (readPayload_digitsText hp.nonempty htail).2]
    omega

end NParam

end CppCore.Ngp
