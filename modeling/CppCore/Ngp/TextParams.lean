import CppCore.Lib.Scanf
import CppCore.Lib.Search
import CppCore.Lib.WhileLoop
import CppCore.Ngp.NParamBlock

/-!
# Params as text

The server reads a `NavRequest` from a text such as `dump` writes: a header, the number of params
and then the params, `id:payload`.  A payload may have spaces in it.  So the loop searches for the
next `:`, backs up to the space in front of it, and gives what stands between that space and the one
in front of the `:` after it to `NParam::readParam`.  The result says how far to move the cursor.
A param that cannot be read moves it to `MAX_UINT32`.

## Main definitions

* `Text` — a string that is read.
* `NParam.scanParam`, `NParam.readParam` — what `sscanf` finds in a param, and the reader of one.
* `NParamBlock.readNext`, `NParamBlock.readParams` — the body of the loop, and the reader of a text.
* `NParamBlock.Meets` — the param that a cursor is in front of.
* `NParamBlock.readNext_of_meets`, `NParamBlock.meets_of_readNext` — what the body of the loop does
  with it.
* `NParamBlock.ParamsAt` — the header is accepted.
-/

namespace CppCore.Ngp

open Lib Scanf

/-- A string before its terminator. -/
def Text := {s : List UInt8 // (0 : UInt8) ∉ s ∧ s.length < 2 ^ 31}

/-! ## One param -/

/-- What `sscanf` finds in a param. -/
structure Scanned where
  /-- The id. -/
  paramID : UInt16
  /-- The payload, up to its terminator. -/
  data : List UInt8
  /-- The characters behind it that belong to the param. -/
  extraLen : ℕ
  deriving DecidableEq, Repr

namespace NParam

/-- `%hu:0x%[0-9A-Fa-f];` -/
def hexFormat : List Directive := .decimal :: (literal ":0x" ++ .set isxdigit :: literal ";")

/-- `%[^\n]` -/
def line : Directive := .set fun c => c ≠ 10

/-- `%hu:%[^\n]` -/
def lineFormat : List Directive := .decimal :: (literal ":" ++ [line])

/-- The calls of `sscanf` in `NParam::readParam`. -/
def scanParam (lib : Scanf) (str : List UInt8) : Option Scanned :=
  match scan (hexFormat ++ [line]) str with
  | [.number id, .text hex, .text tmp] => some ⟨lib.hu id, chars "0x" ++ hex, 1 + tmp.length⟩
  | _ =>
    match scan hexFormat str with
    | [.number id, .text hex] => some ⟨lib.hu id, chars "0x" ++ hex, 1⟩
    | _ =>
      match scan lineFormat str with
      | [.number id, .text data] => some ⟨lib.hu id, data, 0⟩
      | [.number id] => some ⟨lib.hu id, [], 0⟩
      | _ => none

/-- `while ( paramID >= 10 )`, which divides an `uint16` four times at most. -/
def countDigits : ℕ → ℕ → ℕ
  | 0, _ => 1
  | n + 1, paramID => if 10 ≤ paramID then countDigits n (paramID / 10) + 1 else 1

end NParam

namespace Scanned

/-- The characters that the param has according to its id and payload. -/
def width (x : Scanned) : ℕ :=
  x.data.length + x.extraLen + 1 + NParam.countDigits 4 x.paramID.toNat

/-- The payload is in hexadecimal digits. -/
def IsHex (x : Scanned) : Prop :=
  1 < x.data.length ∧ x.data[0]? = some 48 ∧ x.data[1]? = some 120

instance (x : Scanned) : Decidable x.IsHex :=
  inferInstanceAs (Decidable (_ ∧ _))

end Scanned

namespace NParam

/-- The value of a hexadecimal digit, and of any other character. -/
def hexDigit (c : UInt8) : UInt8 :=
  if isdigit c then c - 48 else if isupper c then c - 55 else c - 87

/-- The loop over the hexadecimal digits. -/
def readHex (data : List UInt8) : ℕ → ℕ → List UInt8 → Exec (List UInt8)
  | 0, _, _ => .error .outOfFuel
  | fuel + 1, pos, buff => do
    let c ← byteAt data pos
    if c ≠ 0 ∧ c ≠ 59 then
      let next ← byteAt data (pos + 1)
      readHex data fuel (pos + 2) (buff ++ [hexDigit c <<< 4 + hexDigit next])
    else
      .ok buff

/-- The payload from what was scanned; a last `.` stands for the terminator of a string. -/
def readPayload (x : Scanned) (m_buff : List UInt8) : Exec (List UInt8) :=
  if x.IsHex then
    readHex (x.data ++ [0]) (x.data.length + 1) 2 []
  else if x.data.getLast? = some 46 then
    .ok ((x.data ++ m_buff).dropLast ++ [0])
  else
    .ok (x.data ++ m_buff)

/-- `NParam::readParam`: the param, and the result. -/
def readParam (lib : Scanf) (p : NParam) (str : List UInt8) : Exec (NParam × ℤ) :=
  match scanParam lib str with
  | none => .ok (p, 0)
  | some x => do
    let m_buff ← readPayload x p.m_buff
    .ok (⟨x.paramID, m_buff⟩, int32 x.width)

end NParam

/-! ## The params of a text -/

/-- `MC2String::npos`. -/
def npos : ℕ := 2 ^ 32 - 1

/-- `MAX_UINT32`. -/
def MAX_UINT32 : ℕ := 2 ^ 32 - 1

/-- `MC2String::find`. -/
def find (data : List UInt8) (c : UInt8) (pos : ℕ) : ℕ := (indexFrom data c pos).getD npos

/-- `MC2String::rfind`. -/
def rfind (data : List UInt8) (c : UInt8) (pos : ℕ) : ℕ := (indexUpTo data c pos).getD npos

/-- `MC2String::substr`. -/
def substr (data : List UInt8) (pos n : ℕ) : List UInt8 := (data.drop pos).take n

/-- The string that a pointer into a string denotes. -/
def suffixAt (str : List UInt8) (pos : ℕ) : Exec (List UInt8) :=
  if pos ≤ str.length then .ok (str.drop pos) else .error .outOfBounds

/-- The cursor behind the white space at `pos`. -/
def skipSpace (data : List UInt8) (pos : ℕ) : ℕ :=
  pos + ((data.drop pos).takeWhile isspace).length

/-- The header of a `NavRequest`. -/
structure TextHeader where
  protoVer : UInt8
  type : UInt16
  reqID : UInt8
  reqVer : UInt8
  deriving DecidableEq, Repr

namespace NParamBlock

/-- `protoVer %X type %X reqID %X reqVer %X ` -/
def fieldsFormat : List Directive :=
  literal "protoVer " ++ .hexadecimal :: literal " type " ++ .hexadecimal :: literal " reqID " ++
    .hexadecimal :: literal " reqVer " ++ .hexadecimal :: literal " "

/-- `protoVer %X type %X reqID %X reqVer %X NParamBlock %s` -/
def headerFormat : List Directive :=
  fieldsFormat ++ (literal "NParamBlock" ++ [.space, .word])

/-- `%d params %s` -/
def paramsFormat : List Directive := .decimal :: literal " params " ++ [.word]

/-- The body of the loop, for the cursor and the block. -/
def readNext (lib : Scanf) (data : List UInt8) (state : ℕ × NParamBlock) :
    Exec (ℕ × NParamBlock) := do
  let (pos, params) := state
  let colonPos := find data 58 pos
  let nextColonPos := find data 58 (add32 colonPos 1)
  let paramIDPos :=
    if colonPos ≠ npos then
      let paramIDPos := rfind data 32 colonPos
      if paramIDPos ≠ npos then add32 paramIDPos 1 else paramIDPos
    else
      npos
  let nextParamIDPos :=
    if nextColonPos = npos then
      data.length
    else
      let nextParamIDPos := rfind data 32 nextColonPos
      if nextParamIDPos = npos then data.length else nextParamIDPos
  let (pos, params) ←
    if paramIDPos ≠ npos then do
      let (p, res) ← (NParam.ofID 0).readParam lib
        (substr data paramIDPos (sub32 nextParamIDPos paramIDPos))
      if 0 < res then
        .ok (add32 paramIDPos res.toNat, params.addParam p)
      else
        .ok (MAX_UINT32, params)
    else
      .ok (MAX_UINT32, params)
  .ok (if pos ≠ MAX_UINT32 then skipSpace data pos else pos, params)

/-- The condition of the loop. -/
def unread (data : List UInt8) (state : ℕ × NParamBlock) : Bool :=
  add32 state.1 1 < data.length

/-- `NParamBlock::readParams`: the result, what is read of the header, and the block. -/
def readParams (lib : Scanf) (fuel : ℕ) (str : List UInt8) (header : TextHeader)
    (params : NParamBlock) : Exec (Bool × TextHeader × NParamBlock) :=
  match indexOfWord (chars "NavRequest") str with
  | none => .ok (false, header, params)
  | some startChar => do
    let rest ← suffixAt str (startChar + 10 + 1)
    match scan headerFormat rest with
    | [.number protoVer, .number type, .number reqID, .number reqVer, .text _] =>
      let header : TextHeader := ⟨(lib.X protoVer).toUInt8, (lib.X type).toUInt16,
        (lib.X reqID).toUInt8, (lib.X reqVer).toUInt8⟩
      match indexOfWord (chars "NParamBlock") str with
      | none => .ok (false, header, params)
      | some startChar => do
        let pos := startChar + 11 + 1
        let rest ← suffixAt str pos
        match scan paramsFormat rest with
        | [.number _, .text _] => do
          let (pos, params) ← whileLoop (unread str) (readNext lib str) fuel (pos, params)
          .ok (pos != MAX_UINT32, header, params)
        | _ => .ok (false, header, params)
    | _ => .ok (false, header, params)

/-! ## The payload of a param -/

end NParamBlock

/-- A string ends at an index for the loop over its digits. -/
def EndsAt (data : List UInt8) (i : ℕ) : Prop := data[i]? = some 0 ∨ data[i]? = some 59

/-- The pairs of hexadecimal digits end at the terminator or at a `;`. -/
def Scanned.Terminated (x : Scanned) : Prop := ∃ k, EndsAt (x.data ++ [0]) (2 + 2 * k)

theorem not_endsAt_of_le {data : List UInt8} {i : ℕ} (h : data.length ≤ i) : ¬EndsAt data i := by
  simp [EndsAt, List.getElem?_eq_none h]

/-- Behind a pair that is no end there is the same end. -/
theorem exists_endsAt_iff {data : List UInt8} {pos : ℕ} (h : ¬EndsAt data pos) :
    (∃ k, EndsAt data (pos + 2 * k)) ↔ ∃ k, EndsAt data (pos + 2 + 2 * k) := by
  have hpos : ∀ k, pos + 2 * (k + 1) = pos + 2 + 2 * k := by
    intro k
    omega
  constructor
  · rintro ⟨k, hk⟩
    cases k with
    | zero => exact (h hk).elim
    | succ k => exact ⟨k, by rwa [← hpos]⟩
  · rintro ⟨k, hk⟩
    exact ⟨k + 1, by rwa [hpos]⟩

namespace NParam

/-- **The loop over the digits** stays in the string if it gets to an end at an even distance. -/
theorem readHex_iff {data : List UInt8} {fuel pos : ℕ} (hfuel : data.length < fuel + pos)
    (buff : List UInt8) : (∃ r, readHex data fuel pos buff = .ok r) ↔
      ∃ k, EndsAt data (pos + 2 * k) := by
  induction fuel generalizing pos buff with
  | zero =>
    have hnone : ∀ k, ¬EndsAt data (pos + 2 * k) := fun k => not_endsAt_of_le (by omega)
    simp [readHex, hnone]
  | succ fuel ih =>
    cases hc : data[pos]? with
    | none =>
      have hle := List.getElem?_eq_none_iff.mp hc
      have hnone : ∀ k, ¬EndsAt data (pos + 2 * k) := fun k => not_endsAt_of_le (by omega)
      simp [readHex, byteAt, hc, hnone]
    | some c =>
      by_cases hend : c ≠ 0 ∧ c ≠ 59
      · rw [exists_endsAt_iff (by simp [EndsAt, hc, hend.1, hend.2])]
        cases hnext : data[pos + 1]? with
        | none =>
          have hle := List.getElem?_eq_none_iff.mp hnext
          have hnone : ∀ k, ¬EndsAt data (pos + 2 + 2 * k) :=
            fun k => not_endsAt_of_le (by omega)
          simp [readHex, byteAt, hc, hend, hnext, hnone]
        | some next =>
          rw [← ih (by omega) (buff ++ [hexDigit c <<< 4 + hexDigit next])]
          simp [readHex, byteAt, hc, hend, hnext]
      · have hstop : EndsAt data pos := by
          rw [EndsAt, hc]
          rcases not_and_or.mp hend with h | h
          · exact .inl (congrArg some (not_not.mp h))
          · exact .inr (congrArg some (not_not.mp h))
        refine iff_of_true ⟨buff, ?_⟩ ⟨0, hstop⟩
        simp [readHex, byteAt, hc, hend]

/-- The payload is read without a fault. -/
theorem readPayload_iff (x : Scanned) (m_buff : List UInt8) :
    (∃ r, readPayload x m_buff = .ok r) ↔ (x.IsHex → x.Terminated) := by
  rw [readPayload]
  split
  · rename_i hhex
    rw [readHex_iff (by simp)]
    exact ⟨fun h _ => h, fun h => h hhex⟩
  · rename_i hhex
    refine iff_of_true ?_ fun h => (hhex h).elim
    split
    · exact ⟨_, rfl⟩
    · exact ⟨_, rfl⟩

end NParam

/-- A param that is read without a fault, and whose width is not negative as an `int`. -/
structure Scanned.Sound (x : Scanned) : Prop where
  terminated : x.IsHex → x.Terminated
  width : x.width < 2 ^ 31

namespace NParamBlock

/-! ## The param in front of a cursor -/

/-- The start of the word around an index. -/
def wordStart (data : List UInt8) (c : ℕ) : Option ℕ := (indexUpTo data 32 c).map (· + 1)

/-- The text from `s` up to the word around the next `:` after `c`; all of it, if there is none or
if it is in the same word. -/
def paramText (data : List UInt8) (c s : ℕ) : List UInt8 :=
  match (indexFrom data 58 (c + 1)).bind (indexUpTo data 32) with
  | none => data.drop s
  | some e => if e < s then data.drop s else (data.drop s).take (e - s)

/-- A cursor is in front of a param: of its `:`, the start of its word, and what is found there. -/
structure Meets (lib : Scanf) (data : List UInt8) (pos c s : ℕ) (x : Scanned) : Prop where
  colon : indexFrom data 58 pos = some c
  word : wordStart data c = some s
  scanned : NParam.scanParam lib (paramText data c s) = some x

/-- The cursor behind a param. -/
def behind (data : List UInt8) (s : ℕ) (x : Scanned) : ℕ := skipSpace data (s + x.width)

variable {lib : Scanf} {data : List UInt8} {pos c s : ℕ} {x : Scanned}

theorem Meets.unique {c' s' : ℕ} {x' : Scanned} (h : Meets lib data pos c s x)
    (h' : Meets lib data pos c' s' x') : c = c' ∧ s = s' ∧ x = x' := by
  obtain rfl := Option.some.inj (h.colon.symm.trans h'.colon)
  obtain rfl := Option.some.inj (h.word.symm.trans h'.word)
  exact ⟨rfl, rfl, Option.some.inj (h.scanned.symm.trans h'.scanned)⟩

theorem find_of_eq_some {a : UInt8} {i : ℕ} (h : indexFrom data a pos = some i) :
    find data a pos = i := by
  rw [find, h, Option.getD_some]

theorem rfind_of_eq_some {a : UInt8} {i : ℕ} (h : indexUpTo data a pos = some i) :
    rfind data a pos = i := by
  rw [rfind, h, Option.getD_some]

/-- What `readParam` is given is the text of the param. -/
theorem substr_eq (hlen : data.length < 2 ^ 31) (hs : s ≤ data.length) :
    substr data s (sub32 (if find data 58 (c + 1) = npos then data.length else
      if rfind data 32 (find data 58 (c + 1)) = npos then data.length
      else rfind data 32 (find data 58 (c + 1))) s) = paramText data c s := by
  have hall : substr data s (sub32 data.length s) = data.drop s := by
    rw [sub32_of_le hs (by omega), substr]
    exact List.take_of_length_le (by simp)
  rw [paramText]
  cases hnext : indexFrom data 58 (c + 1) with
  | none =>
    have hfind : find data 58 (c + 1) = npos := by rw [find, hnext, Option.getD_none]
    rw [if_pos hfind, hall]
    rfl
  | some n =>
    have hn := indexFrom_lt_length hnext
    have hne : n ≠ npos := by
      rw [npos]
      omega
    rw [find_of_eq_some hnext, if_neg hne, Option.bind_some]
    cases hspace : indexUpTo data 32 n with
    | none =>
      have hrfind : rfind data 32 n = npos := by rw [rfind, hspace, Option.getD_none]
      rw [if_pos hrfind, hall]
    | some e =>
      have he := (indexUpTo_eq_some.mp hspace).1
      have hene : e ≠ npos := by
        rw [npos]
        omega
      rw [rfind_of_eq_some hspace, if_neg hene]
      dsimp only
      split
      · rename_i hlt
        have hwrap := sub32_of_lt hlt (by omega)
        rw [substr]
        apply List.take_of_length_le
        rw [List.length_drop]
        omega
      · rename_i hle
        rw [sub32_of_le (not_lt.mp hle) (by omega), substr]

/-- Where the word of a `:` starts, `readParam` is given its text. -/
private theorem readNext_of_word (hlen : data.length < 2 ^ 31)
    (hcolon : indexFrom data 58 pos = some c) (hword : wordStart data c = some s)
    (params : NParamBlock) :
    readNext lib data (pos, params) = (do
      let (p, res) ← (NParam.ofID 0).readParam lib (paramText data c s)
      let (pos, params) ←
        if 0 < res then
          .ok (add32 s res.toNat, params.addParam p)
        else
          .ok (MAX_UINT32, params)
      .ok (if pos ≠ MAX_UINT32 then skipSpace data pos else pos, params)) := by
  have hc := indexFrom_lt_length hcolon
  obtain ⟨e, he, rfl⟩ := Option.map_eq_some_iff.mp hword
  have hle := (indexUpTo_eq_some.mp he).1
  have hcne : c ≠ npos := by
    rw [npos]
    omega
  have hene : e ≠ npos := by
    rw [npos]
    omega
  have hsne : e + 1 ≠ npos := by
    rw [npos]
    omega
  have hsubstr := substr_eq (c := c) hlen (s := e + 1) (by omega)
  have hcadd : add32 c 1 = c + 1 := add32_of_lt (by omega)
  have headd : add32 e 1 = e + 1 := add32_of_lt (by omega)
  simp only [readNext, find_of_eq_some hcolon, rfind_of_eq_some he, hcadd, headd, ne_eq, hcne, hene,
    hsne, not_false_eq_true, if_true, hsubstr]

end NParamBlock

namespace NParam

theorem countDigits_le (n paramID : ℕ) : countDigits n paramID ≤ n + 1 := by
  induction n generalizing paramID with
  | zero => exact le_rfl
  | succ n ih =>
    rw [countDigits]
    split
    · have := ih (paramID / 10)
      omega
    · omega

/-- A param is hardly longer than its text. -/
theorem width_le_of_scanParam {str : List UInt8} (h : scanParam lib str = some x) :
    x.width ≤ str.length + 9 := by
  have hdigits := countDigits_le 4 x.paramID.toNat
  have hsum : x.data.length + x.extraLen ≤ str.length + 3 := by
    have hzerox : (chars "0x").length = 2 := rfl
    rw [scanParam] at h
    split at h
    · rename_i heq
      have hsize := size_scan_le (hexFormat ++ [line]) str
      obtain rfl := Option.some.inj h
      simp only [heq, List.map_cons, Arg.size, List.sum_cons, List.map_nil, List.sum_nil] at hsize
      simp only [List.length_append]
      omega
    · split at h
      · rename_i heq
        have hsize := size_scan_le hexFormat str
        obtain rfl := Option.some.inj h
        simp only [heq, List.map_cons, Arg.size, List.sum_cons, List.map_nil, List.sum_nil] at hsize
        simp only [List.length_append]
        omega
      · split at h
        · rename_i heq
          have hsize := size_scan_le lineFormat str
          obtain rfl := Option.some.inj h
          simp only [heq, List.map_cons, Arg.size, List.sum_cons, List.map_nil,
            List.sum_nil] at hsize
          dsimp only
          omega
        · obtain rfl := Option.some.inj h
          simp
        · cases h
  rw [Scanned.width]
  omega

end NParam

namespace NParamBlock

theorem length_paramText_le (data : List UInt8) (c s : ℕ) :
    (paramText data c s).length ≤ data.length := by
  rw [paramText]
  split
  · simp
  · split
    · simp
    · simp only [List.length_take, List.length_drop]
      omega

theorem Meets.start_le (h : Meets lib data pos c s x) : s ≤ c + 1 := by
  obtain ⟨e, he, rfl⟩ := Option.map_eq_some_iff.mp h.word
  have := (indexUpTo_eq_some.mp he).1
  omega

/-- **In front of a param** the body of the loop reads its payload, adds it and goes on behind
it. -/
theorem readNext_eq_of_meets (hlen : data.length < 2 ^ 31) (h : Meets lib data pos c s x)
    (hwidth : x.width < 2 ^ 31) (params : NParamBlock) :
    readNext lib data (pos, params) = NParam.readPayload x [] >>= fun m_buff =>
      .ok (behind data s x, params.addParam ⟨x.paramID, m_buff⟩) := by
  have hc := indexFrom_lt_length h.colon
  have hs := h.start_le
  have hpositive : 0 < x.width := by
    rw [Scanned.width]
    omega
  have hint : int32 x.width = x.width := by
    rw [int32, Nat.mod_eq_of_lt (by omega), if_pos (by omega)]
  have hadd : add32 s x.width = s + x.width := add32_of_lt (by omega)
  have hne : s + x.width ≠ MAX_UINT32 := by
    rw [MAX_UINT32]
    omega
  rw [readNext_of_word hlen h.colon h.word, NParam.readParam, h.scanned]
  simp only [NParam.ofID, hint]
  cases NParam.readPayload x [] with
  | error => rfl
  | ok m_buff =>
    simp only [Exec.ok_bind]
    rw [if_pos (by omega)]
    simp only [Int.toNat_natCast, hadd, ne_eq, hne, not_false_eq_true, if_true, behind]

/-- The param is added if it is read without a fault. -/
theorem readNext_of_meets (hlen : data.length < 2 ^ 31) (h : Meets lib data pos c s x)
    (hsound : x.Sound) (params : NParamBlock) :
    ∃ params', readNext lib data (pos, params) = .ok (behind data s x, params') := by
  obtain ⟨m_buff, hbuff⟩ := (NParam.readPayload_iff x []).mpr hsound.terminated
  refine ⟨params.addParam ⟨x.paramID, m_buff⟩, ?_⟩
  rw [readNext_eq_of_meets hlen h hsound.width, hbuff, Exec.ok_bind]

/-- Without a word the cursor is lost. -/
private theorem readNext_of_no_word (hlen : data.length < 2 ^ 31)
    (h : (indexFrom data 58 pos).bind (wordStart data) = none) (params : NParamBlock) :
    readNext lib data (pos, params) = .ok (MAX_UINT32, params) := by
  cases hcolon : indexFrom data 58 pos with
  | none =>
    have hfind : find data 58 pos = npos := by rw [find, hcolon, Option.getD_none]
    simp only [readNext, hfind, ne_eq, not_true_eq_false, if_false, Exec.ok_bind]
  | some c =>
    have hc := indexFrom_lt_length hcolon
    have hcne : c ≠ npos := by
      rw [npos]
      omega
    rw [hcolon, Option.bind_some, wordStart, Option.map_eq_none_iff] at h
    have hrfind : rfind data 32 c = npos := by rw [rfind, h, Option.getD_none]
    simp only [readNext, find_of_eq_some hcolon, hrfind, ne_eq, hcne, not_true_eq_false,
      not_false_eq_true, if_true, if_false, Exec.ok_bind]

/-- **The cursor is lost or was in front of a param**, whenever the body of the loop has no
fault. -/
theorem meets_of_readNext (hlen : data.length < 2 ^ 31) {params : NParamBlock}
    {r : ℕ × NParamBlock} (h : readNext lib data (pos, params) = .ok r) :
    r.1 = MAX_UINT32 ∨ ∃ c s x, Meets lib data pos c s x ∧ x.Sound ∧ r.1 = behind data s x := by
  cases hfound : (indexFrom data 58 pos).bind (wordStart data) with
  | none =>
    left
    rw [Exec.unique h (readNext_of_no_word hlen hfound params)]
  | some s =>
    obtain ⟨c, hcolon, hword⟩ := Option.bind_eq_some_iff.mp hfound
    have hrun := h
    rw [readNext_of_word hlen hcolon hword, NParam.readParam] at hrun
    cases hscan : NParam.scanParam lib (paramText data c s) with
    | none =>
      left
      simp only [hscan, Exec.ok_bind, lt_irrefl, if_false, ne_eq, not_true_eq_false] at hrun
      rw [← Except.ok.inj hrun]
    | some x =>
      obtain ⟨_, hparam, hrest⟩ := Exec.bind_eq_ok.mp hrun
      rw [hscan] at hparam
      obtain ⟨m_buff, hbuff, heq⟩ := Exec.bind_eq_ok.mp hparam
      obtain rfl := Except.ok.inj heq
      by_cases hint : 0 < int32 x.width
      · right
        have hmeets : Meets lib data pos c s x := ⟨hcolon, hword, hscan⟩
        have hwidth := NParam.width_le_of_scanParam hscan
        have htext := length_paramText_le data c s
        have hlt : x.width < 2 ^ 31 := by
          rw [int32] at hint
          split at hint <;> omega
        have hsound : x.Sound := ⟨(NParam.readPayload_iff x []).mp ⟨m_buff, hbuff⟩, hlt⟩
        obtain ⟨params', hnext⟩ := readNext_of_meets hlen hmeets hsound params
        exact ⟨c, s, x, hmeets, hsound, by rw [Exec.unique h hnext]⟩
      · left
        simp only [hint, if_false, Exec.ok_bind, ne_eq, not_true_eq_false] at hrest
        rw [← Except.ok.inj hrest]

/-! ## The header -/

/-- The header is accepted, and the params are read from `pos` on. -/
structure ParamsAt (str : List UInt8) (pos : ℕ) : Prop where
  header : ∃ startChar, indexOfWord (chars "NavRequest") str = some startChar ∧
    ∃ protoVer type reqID reqVer rest, scan headerFormat (str.drop (startChar + 11)) =
      [.number protoVer, .number type, .number reqID, .number reqVer, .text rest]
  block : ∃ startChar, indexOfWord (chars "NParamBlock") str = some startChar ∧
    pos = startChar + 12
  params : ∃ nbrParams rest, scan paramsFormat (str.drop pos) = [.number nbrParams, .text rest]

/-- There is a character behind the first `NavRequest`, if there is one. -/
def Continues (str : List UInt8) : Prop :=
  ∀ startChar, indexOfWord (chars "NavRequest") str = some startChar →
    startChar + 10 < str.length

/-- Where the header is accepted there is a character behind the first `NParamBlock`. -/
theorem block_of_scan {str : List UInt8} {i : ℕ}
    (h : (scan headerFormat (str.drop i)).length = 5) :
    ∃ j, indexOfWord (chars "NParamBlock") str = some j ∧ j + 12 ≤ str.length := by
  have hassigns : fieldsFormat.countP Directive.assigns = 4 := by decide
  have hliteral : literal "NParamBlock" = (chars "NParamBlock").map .char := by
    apply List.map_congr_left
    intro c hc
    have hspace : ∀ c ∈ chars "NParamBlock", isspace c = false := by decide +kernel
    simp [hspace c hc]
  obtain ⟨t, ht, heq⟩ := scan_append_of_lt (show fieldsFormat.countP Directive.assigns <
    (scan (fieldsFormat ++ (literal "NParamBlock" ++ [.space, .word])) (str.drop i)).length by
      rw [hassigns]
      exact h.ge)
  have hfields := length_scan_le fieldsFormat (str.drop i)
  have hne : scan ((chars "NParamBlock").map .char ++ [.space, .word]) t ≠ [] := by
    rw [← hliteral]
    intro hnil
    rw [hnil, List.append_nil] at heq
    rw [headerFormat, heq] at h
    omega
  obtain ⟨rest, rfl, hrest⟩ := scan_chars_append hne
  have hlen : 12 ≤ (chars "NParamBlock" ++ rest).length := by
    have hchars : (chars "NParamBlock").length = 11 := by decide
    cases rest with
    | nil =>
      rw [hrest] at hne
      exact (hne rfl).elim
    | cons b rest =>
      rw [List.length_append, hchars, List.length_cons]
      omega
  have hsuffix := ht.trans (List.drop_suffix i str)
  obtain ⟨j, hj, hle⟩ := indexOfWord_le (w := chars "NParamBlock") (l := str)
    (i := str.length - (chars "NParamBlock" ++ rest).length) (by
      rw [← List.suffix_iff_eq_drop.mp hsuffix]
      exact List.prefix_append _ _)
  have := hsuffix.length_le
  exact ⟨j, hj, by omega⟩

theorem suffixAt_of_le {str : List UInt8} {pos : ℕ} (h : pos ≤ str.length) :
    suffixAt str pos = .ok (str.drop pos) := if_pos h

/-- **Behind the header** the result is that of the loop. -/
theorem readParams_of_paramsAt (lib : Scanf) {str : List UInt8} {pos : ℕ}
    (hcontinues : Continues str) (h : ParamsAt str pos) (header : TextHeader)
    (params : NParamBlock) :
    ∃ header', ∀ fuel, readParams lib fuel str header params = (do
      let (pos, params) ← whileLoop (unread str) (readNext lib str) fuel (pos, params)
      .ok (pos != MAX_UINT32, header', params)) := by
  obtain ⟨i, hi, protoVer, type, reqID, reqVer, rest, hheader⟩ := h.header
  obtain ⟨j, hj, rfl⟩ := h.block
  obtain ⟨nbrParams, rest', hparams⟩ := h.params
  have hlt := hcontinues i hi
  obtain ⟨j', hj', hle⟩ := block_of_scan (congrArg List.length hheader)
  obtain rfl := Option.some.inj (hj.symm.trans hj')
  refine ⟨⟨(lib.X protoVer).toUInt8, (lib.X type).toUInt16, (lib.X reqID).toUInt8,
    (lib.X reqVer).toUInt8⟩, ?_⟩
  intro fuel
  simp only [readParams, hi, suffixAt_of_le (show i + 10 + 1 ≤ str.length by omega),
    Exec.ok_bind, hheader, hj, suffixAt_of_le (show j + 11 + 1 ≤ str.length by omega), hparams]

/-- A header that is not accepted is reported, and nothing is read from behind it. -/
theorem readParams_of_rejected (lib : Scanf) {str : List UInt8} (hcontinues : Continues str)
    (h : ∀ pos, ¬ParamsAt str pos) (fuel : ℕ) (header : TextHeader) (params : NParamBlock) :
    ∃ header', readParams lib fuel str header params = .ok (false, header', params) := by
  rw [readParams]
  cases hi : indexOfWord (chars "NavRequest") str with
  | none => exact ⟨header, rfl⟩
  | some i =>
    have hlt := hcontinues i hi
    simp only [suffixAt_of_le (show i + 10 + 1 ≤ str.length by omega), Exec.ok_bind]
    split
    · rename_i protoVer type reqID reqVer rest hheader
      obtain ⟨j, hj, hle⟩ := block_of_scan (congrArg List.length hheader)
      simp only [hj, suffixAt_of_le (show j + 11 + 1 ≤ str.length by omega), Exec.ok_bind]
      split
      · rename_i nbrParams rest' hparams
        exact (h (j + 12) ⟨⟨i, hi, protoVer, type, reqID, reqVer, rest, hheader⟩,
          ⟨j, hj, rfl⟩, ⟨nbrParams, rest', hparams⟩⟩).elim
      · exact ⟨_, rfl⟩
    · exact ⟨header, rfl⟩

/-- A text that ends with its first `NavRequest` is read behind its terminator. -/
theorem readParams_of_not_continues {str : List UInt8} (h : ¬Continues str) (fuel : ℕ)
    (header : TextHeader) (params : NParamBlock) :
    readParams lib fuel str header params = .error .outOfBounds := by
  simp only [Continues, not_forall, not_lt] at h
  obtain ⟨i, hi, hle⟩ := h
  have hpast : ¬i + 10 + 1 ≤ str.length := by omega
  simp only [readParams, hi, suffixAt, hpast, if_false, Exec.error_bind]

end NParamBlock

end CppCore.Ngp
