import CppCore.Ngp.TextDump
import CppCore.Ngp.TextScan

/-!
# Reading a dump

`NParamBlock::dump` writes the params of a block one behind the other, separated by spaces, and
leaves out the payloads of those behind the first few with the same id.  Behind the header of a
`NavRequest` this is what `readParams` reads.

A payload may have spaces in it, but no `:`.  So the reader, which searches for the next `:` from
anywhere behind the one before, meets each param that has a payload, whatever it has made of the
ones before.  One without a payload has no `:`, and becomes a part of the one in front of it.

## Main definitions

* `NParamBlock.dump`, `NParamBlock.request` — the writer of a block, and a request with its header.
* `NParamBlock.segments` — the params that have a payload, each with what is written up to the next.
* `NParamBlock.readNext_segment` — the body of the loop in front of such a param.
* `NParamBlock.loop_segments` — what a loop that ends has read.
* `NParamBlock.readParams_request_iff` — which blocks are read as they were dumped.
-/

namespace CppCore.Ngp.NParamBlock

open Lib Scanf

/-! ## The writer -/

/-- The loop of `NParamBlock::dump`, from `lastId` and `nbrSameId` on. -/
def dumpFrom (singleLine : Bool) (maxLen maxSame : ℕ) : ℕ → ℕ → List NParam → List UInt8
  | _, _, [] => []
  | lastId, nbrSameId, p :: ps =>
    let nbrSameId := if p.m_paramID.toNat = lastId then nbrSameId + 1 else 0
    p.dump singleLine (if maxSame < nbrSameId then 0 else maxLen) ++
      (if singleLine && !ps.isEmpty then [32] else []) ++
      dumpFrom singleLine maxLen maxSame p.m_paramID.toNat nbrSameId ps

/-- `NParamBlock::dump`. -/
def dump (b : NParamBlock) (singleLine : Bool) (maxLen maxSame : ℕ) : List UInt8 :=
  chars "NParamBlock " ++ printNumber 10 b.m_params.toList.length ++ chars " params " ++
    (if !singleLine then [10] else []) ++
    dumpFrom singleLine maxLen maxSame 0 0 b.m_params.toList ++ (if singleLine then [10] else [])

/-- A field of the header: its name, and its value in hexadecimal digits. -/
def field (name : String) (n : ℕ) : List UInt8 := chars name ++ (chars "0x" ++ printNumber 16 n)

/-- The fields of the header. -/
def fieldsText (header : TextHeader) : List UInt8 :=
  field "protoVer " header.protoVer.toNat ++ (field " type " header.type.toNat ++
    (field " reqID " header.reqID.toNat ++ (field " reqVer " header.reqVer.toNat ++ chars " ")))

/-- A request as a comment in `readParams` has it: the header, and a block on a single line. -/
def request (header : TextHeader) (b : NParamBlock) (maxLen maxSame : ℕ) : List UInt8 :=
  chars "NavRequest " ++ (fieldsText header ++ b.dump true maxLen maxSame)

/-- Nothing is left out: no payload is longer than is written, or than its length can say, and no
id occurs too often.  An id of zero is counted from the first on, the others from the second. -/
structure Complete (b : NParamBlock) (maxLen maxSame : ℕ) : Prop where
  length : ∀ p ∈ b.m_params.toList, p.m_buff.length ≤ maxLen ∧ p.m_buff.length ≤ 65535
  same : ∀ id, (b.m_params.toList.countP fun p => p.m_paramID.toNat = id) ≤
    if id = 0 then maxSame else maxSame + 1

/-! ## Params with a payload -/

/-- The text of some params, each behind a space, up to the end of the line. -/
def items (ps : List NParam) : List UInt8 := ps.flatMap fun p => 32 :: p.item

/-- What is written before the first param that has a payload, and each of these with what is
written behind it before the next one. -/
def segments : List NParam → List UInt8 × List (NParam × List UInt8)
  | [] => ([], [])
  | p :: ps =>
    if p.m_buff = [] then (32 :: p.item ++ (segments ps).1, (segments ps).2)
    else ([], (p, (segments ps).1) :: (segments ps).2)

/-- The text of such params. -/
def segmentsText (l : List (NParam × List UInt8)) : List UInt8 :=
  l.flatMap fun x => 32 :: x.1.item ++ x.2

theorem items_eq (ps : List NParam) :
    items ps = (segments ps).1 ++ segmentsText (segments ps).2 := by
  induction ps with
  | nil => rfl
  | cons p ps ih =>
    rw [items, List.flatMap_cons, segments]
    change 32 :: p.item ++ items ps = _
    rw [ih]
    split <;> simp [segmentsText]

/-- Digits are neither a `:` nor white space. -/
theorem printNumber_spec (n : ℕ) : ∀ c ∈ printNumber 10 n, c ≠ 58 ∧ c ≠ 10 ∧ c ≠ 32 := by
  intro c hc
  have hdigit : isdigit c = true := isDigitOf_of_mem (Or.inl rfl) n c hc
  refine ⟨?_, ?_, ?_⟩ <;> rintro rfl <;> exact absurd hdigit (by decide)

/-- Of a param without a payload there is neither a `:` nor the end of a line. -/
theorem segments_fst (ps : List NParam) : ∀ c ∈ (segments ps).1, c ≠ 58 ∧ c ≠ 10 := by
  induction ps with
  | nil => simp [segments]
  | cons p ps ih =>
    rw [segments]
    split
    · rename_i hnil
      intro c hc
      simp only [NParam.item, if_pos hnil, List.append_nil, List.mem_append, List.mem_cons] at hc
      rcases hc with (rfl | hc) | hc
      · decide
      · exact ⟨(printNumber_spec _ c hc).1, (printNumber_spec _ c hc).2.1⟩
      · exact ih c hc
    · simp

/-- The params of the segments are those with a payload. -/
theorem segments_snd (ps : List NParam) :
    (segments ps).2.map Prod.fst = ps.filter (fun p => p.m_buff ≠ []) ∧
      ∀ x ∈ (segments ps).2, x.1.m_buff ≠ [] ∧ ∀ c ∈ x.2, c ≠ 58 ∧ c ≠ 10 := by
  induction ps with
  | nil => simp [segments]
  | cons p ps ih =>
    obtain ⟨hfilter, hall⟩ := ih
    rw [segments]
    split
    · rename_i hnil
      rw [List.filter_cons_of_neg (by simpa using hnil)]
      exact ⟨hfilter, hall⟩
    · rename_i hne
      rw [List.filter_cons_of_pos (by simpa using hne), List.map_cons, hfilter]
      exact ⟨rfl, List.forall_mem_cons.mpr ⟨⟨hne, segments_fst ps⟩, hall⟩⟩

/-- If all of them have one, nothing is between them. -/
theorem segments_of_forall {ps : List NParam} (h : ∀ p ∈ ps, p.m_buff ≠ []) :
    segments ps = ([], ps.map fun p => (p, [])) := by
  induction ps with
  | nil => rfl
  | cons p ps ih =>
    obtain ⟨hp, hps⟩ := List.forall_mem_cons.mp h
    rw [segments, if_neg hp, ih hps]
    rfl

/-! ## In front of a param with a payload -/

/-- The `:` of a param with a payload and the space in front of it. -/
theorem colon_item {A : List UInt8} {p : NParam} (hne : p.m_buff ≠ []) {pos : ℕ}
    (hpos : pos ≤ A.length + 1) (hcolon : 58 ∉ (A ++ [32]).drop pos) (B : List UInt8) :
    indexFrom (A ++ 32 :: (p.item ++ B)) 58 pos =
        some (A.length + 1 + (printNumber 10 p.m_paramID.toNat).length) ∧
      indexUpTo (A ++ 32 :: (p.item ++ B)) 32
        (A.length + 1 + (printNumber 10 p.m_paramID.toNat).length) = some A.length := by
  have hitem : p.item = printNumber 10 p.m_paramID.toNat ++ 58 :: p.body := by
    rw [NParam.item, if_neg hne]
  have hdigits := printNumber_spec p.m_paramID.toNat
  constructor
  · have hsplit : A ++ 32 :: (p.item ++ B) =
        (A ++ [32] ++ printNumber 10 p.m_paramID.toNat) ++ 58 :: (p.body ++ B) := by
      simp [hitem]
    have hle : pos ≤ (A ++ [32]).length := by
      rw [List.length_append, List.length_singleton]
      exact hpos
    rw [hsplit, indexFrom_append_cons]
    · simp only [List.length_append, List.length_singleton]
    · rw [List.length_append]
      omega
    · rw [List.drop_append_of_le_length hle, List.mem_append, not_or]
      exact ⟨hcolon, fun h => (hdigits 58 h).1 rfl⟩
  · have hsplit : A ++ 32 :: (p.item ++ B) =
        A ++ 32 :: ((printNumber 10 p.m_paramID.toNat ++ [58]) ++ (p.body ++ B)) := by
      simp [hitem]
    have hfree : (32 : UInt8) ∉ printNumber 10 p.m_paramID.toNat ++ [58] := by
      rw [List.mem_append, List.mem_singleton, not_or]
      exact ⟨fun h => (hdigits 32 h).2.2 rfl, by decide⟩
    have hlen : A.length + 1 + (printNumber 10 p.m_paramID.toNat).length =
        A.length + (printNumber 10 p.m_paramID.toNat ++ [58]).length := by
      rw [List.length_append, List.length_singleton]
      omega
    rw [hsplit, hlen]
    exact indexUpTo_append_cons hfree

/-- The text of a segment and of what is behind it. -/
def segmentAt (A : List UInt8) (p : NParam) (junk : List UInt8) (l : List (NParam × List UInt8)) :
    List UInt8 :=
  A ++ 32 :: (p.item ++ (junk ++ (segmentsText l ++ [10])))

/-- It is the beginning of the next one. -/
theorem segmentAt_cons (A : List UInt8) (p q : NParam) (junk j : List UInt8)
    (l : List (NParam × List UInt8)) :
    segmentAt A p junk ((q, j) :: l) = segmentAt (A ++ 32 :: p.item ++ junk) q j l := by
  simp [segmentAt, segmentsText]

/-- **A cursor behind the `:` before** is in front of the param. -/
theorem meets_segment (lib : Scanf) {A junk : List UInt8} {p : NParam}
    {l : List (NParam × List UInt8)} {pos : ℕ} (hne : p.m_buff ≠ [])
    (hjunk : ∀ c ∈ junk, c ≠ 58 ∧ c ≠ 10) (hl : ∀ x ∈ l, x.1.m_buff ≠ [])
    (hpos : pos ≤ A.length + 1) (hcolon : 58 ∉ (A ++ [32]).drop pos) :
    ∃ tail, (junk = [] → NParam.restOfLine tail = []) ∧
      NParam.restOfLine (p.body ++ tail) = p.body ++ junk ∧
      Meets lib (segmentAt A p junk l) pos
        (A.length + 1 + (printNumber 10 p.m_paramID.toNat).length) (A.length + 1)
        (NParam.found p.m_paramID (p.body ++ tail)) := by
  have hitem : p.item = printNumber 10 p.m_paramID.toNat ++ 58 :: p.body := by
    rw [NParam.item, if_neg hne]
  obtain ⟨hfrom, hupto⟩ := colon_item hne hpos hcolon (junk ++ (segmentsText l ++ [10]))
  have hword : wordStart (segmentAt A p junk l)
      (A.length + 1 + (printNumber 10 p.m_paramID.toNat).length) = some (A.length + 1) := by
    rw [wordStart, segmentAt, hupto]
    rfl
  have hfree : (58 : UInt8) ∉ p.body ++ junk := by
    rw [List.mem_append, not_or]
    exact ⟨fun h => (NParam.body_spec p 58 h).1 rfl, fun h => (hjunk 58 h).1 rfl⟩
  have hline : ∀ c ∈ p.body ++ junk, c ≠ 10 := by
    intro c hc
    rcases List.mem_append.mp hc with hc | hc
    · exact (NParam.body_spec p c hc).2
    · exact (hjunk c hc).2
  have hbehind : ∀ B, (A ++ 32 :: (p.item ++ B)).drop
      (A.length + 1 + (printNumber 10 p.m_paramID.toNat).length + 1) = p.body ++ B := by
    intro B
    have hsplit : A ++ 32 :: (p.item ++ B) =
        (A ++ [32] ++ printNumber 10 p.m_paramID.toNat ++ [58]) ++ (p.body ++ B) := by
      simp [hitem]
    rw [hsplit]
    apply List.drop_left'
    simp only [List.length_append, List.length_singleton]
  have hstart : ∀ B, (A ++ 32 :: (p.item ++ B)).drop (A.length + 1) = p.item ++ B := by
    intro B
    have hsplit : A ++ 32 :: (p.item ++ B) = (A ++ [32]) ++ (p.item ++ B) := by simp
    rw [hsplit]
    exact List.drop_left' (by simp)
  cases l with
  | nil =>
    have hnone : indexFrom (segmentAt A p junk []) 58
        (A.length + 1 + (printNumber 10 p.m_paramID.toNat).length + 1) = none := by
      apply indexFrom_of_not_mem
      rw [segmentAt, hbehind, ← List.append_assoc, List.mem_append, not_or]
      exact ⟨hfree, by simp [segmentsText]⟩
    refine ⟨junk ++ [10], ?_, ?_, hfrom, hword, ?_⟩
    · rintro rfl
      rfl
    · rw [← List.append_assoc, NParam.restOfLine_append hline]
      exact List.append_nil _
    · rw [paramText, hnone, Option.bind_none]
      dsimp only
      rw [segmentAt, hstart, hitem, List.append_assoc, List.cons_append, NParam.scanParam_eq]
      rfl
  | cons x l =>
    obtain ⟨q, j⟩ := x
    have hq := hl _ List.mem_cons_self
    have hlen : (A ++ 32 :: p.item ++ junk).length =
        A.length + 1 + p.item.length + junk.length := by
      simp only [List.length_append, List.length_cons]
      omega
    have hitemlen : p.item.length = (printNumber 10 p.m_paramID.toNat).length + 1 +
        p.body.length := by
      rw [hitem, List.length_append, List.length_cons]
      omega
    have hbefore : A.length + 1 + (printNumber 10 p.m_paramID.toNat).length + 1 ≤
        (A ++ 32 :: p.item ++ junk).length + 1 := by omega
    have hclear : (58 : UInt8) ∉ (A ++ 32 :: p.item ++ junk ++ [32]).drop
        (A.length + 1 + (printNumber 10 p.m_paramID.toNat).length + 1) := by
      have hsplit : A ++ 32 :: p.item ++ junk ++ [32] = A ++ 32 :: (p.item ++ (junk ++ [32])) := by
        simp
      rw [hsplit, hbehind, ← List.append_assoc, List.mem_append, not_or]
      exact ⟨hfree, by decide⟩
    have hnext := colon_item hq hbefore hclear (j ++ (segmentsText l ++ [10]))
    refine ⟨junk, ?_, ?_, hfrom, hword, ?_⟩
    · rintro rfl
      rfl
    · rw [← List.append_nil (p.body ++ junk), NParam.restOfLine_append hline]
      rfl
    · have htake : ((segmentAt A p junk ((q, j) :: l)).drop (A.length + 1)).take
          ((A ++ 32 :: p.item ++ junk).length - (A.length + 1)) = p.item ++ junk := by
        rw [segmentAt, hstart, ← List.append_assoc]
        apply List.take_left'
        rw [List.length_append]
        omega
      rw [paramText, segmentAt_cons, segmentAt, hnext.1, Option.bind_some, hnext.2]
      dsimp only
      rw [if_neg (by omega), ← segmentAt, ← segmentAt_cons, htake, hitem, List.append_assoc,
        List.cons_append, NParam.scanParam_eq]

/-- White space is skipped up to a character that is none. -/
theorem skipSpace_le {data : List UInt8} {pos k : ℕ} (hpos : pos ≤ k)
    (hk : ∀ c ∈ data[k]?, isspace c = false) : skipSpace data pos ≤ k := by
  obtain ⟨j, rfl⟩ := Nat.exists_eq_add_of_le hpos
  by_contra hlt
  rw [skipSpace] at hlt
  have hhead := List.takeWhile_prefix (l := data.drop pos) isspace
  have hindex : j < ((data.drop pos).takeWhile isspace).length := by omega
  have hget : data[pos + j]? = some (((data.drop pos).takeWhile isspace)[j]) := by
    rw [← List.getElem?_drop, List.prefix_iff_getElem?.mp hhead j hindex]
  have hspace := List.mem_takeWhile_imp (List.getElem_mem hindex)
  rw [hk _ hget] at hspace
  cases hspace

/-- Behind a segment is the next one, or the end of the text. -/
theorem head_behind_segment {A junk : List UInt8} {p : NParam} {l : List (NParam × List UInt8)}
    (hl : ∀ x ∈ l, x.1.m_buff ≠ []) :
    ∀ c ∈ (segmentAt A p junk l)[(A ++ 32 :: p.item ++ junk).length + 1]?, isspace c = false := by
  have hsplit : segmentAt A p junk l = (A ++ 32 :: p.item ++ junk) ++ (segmentsText l ++ [10]) := by
    simp [segmentAt]
  intro c hc
  rw [Option.mem_def, hsplit, List.getElem?_append_right (by omega), Nat.add_sub_cancel_left] at hc
  cases l with
  | nil => simp [segmentsText] at hc
  | cons x l =>
    obtain ⟨d, ds, hds⟩ := List.exists_cons_of_ne_nil (printNumber_ne_nil 10 x.1.m_paramID.toNat)
    rw [segmentsText, List.flatMap_cons, NParam.item, hds] at hc
    obtain rfl := Option.some.inj hc
    exact (digit_spec (isDigitOf_of_mem (Or.inl rfl) x.1.m_paramID.toNat d
      (by rw [hds]; exact List.mem_cons_self))).1

/-- **The body of the loop in front of a param with a payload** reads what it finds there, and moves
the cursor behind its `:` and not behind the start of the next one. -/
theorem readNext_segment (lib : Scanf) {A junk : List UInt8} {p : NParam}
    {l : List (NParam × List UInt8)} {pos : ℕ} (hlen : (segmentAt A p junk l).length < 2 ^ 31)
    (hne : p.m_buff ≠ []) (hjunk : ∀ c ∈ junk, c ≠ 58 ∧ c ≠ 10) (hl : ∀ x ∈ l, x.1.m_buff ≠ [])
    (hpos : pos ≤ A.length + 1) (hcolon : 58 ∉ (A ++ [32]).drop pos) :
    ∃ tail pos', (junk = [] → NParam.restOfLine tail = []) ∧
      (∀ params, readNext lib (segmentAt A p junk l) (pos, params) =
        NParam.readPayload (NParam.found p.m_paramID (p.body ++ tail)) [] >>= fun m_buff =>
          .ok (pos', params.addParam ⟨p.m_paramID, m_buff⟩)) ∧
      pos' ≤ (A ++ 32 :: p.item ++ junk).length + 1 ∧
      58 ∉ (A ++ 32 :: p.item ++ junk ++ [32]).drop pos' ∧
      (junk = [] → p.Recoverable → (A ++ 32 :: p.item ++ junk).length ≤ pos') := by
  obtain ⟨tail, htail, hline, hmeets⟩ := meets_segment lib hne hjunk hl hpos hcolon
  have hitem : p.item = printNumber 10 p.m_paramID.toNat ++ 58 :: p.body := by
    rw [NParam.item, if_neg hne]
  obtain ⟨hlow, hhigh⟩ := NParam.width_found p.m_paramID (p.body ++ tail)
  have hlength : (A ++ 32 :: p.item ++ junk).length = A.length + 1 +
      ((printNumber 10 p.m_paramID.toNat).length + 1 + p.body.length) + junk.length := by
    simp only [hitem, List.length_append, List.length_cons]
    omega
  have hdata : (A ++ 32 :: p.item ++ junk).length < (segmentAt A p junk l).length := by
    rw [segmentAt]
    simp only [List.length_append, List.length_cons, List.length_nil]
    omega
  rw [hline, List.length_append] at hhigh
  have hle : behind (segmentAt A p junk l) (A.length + 1)
      (NParam.found p.m_paramID (p.body ++ tail)) ≤ (A ++ 32 :: p.item ++ junk).length + 1 :=
    skipSpace_le (by omega) (head_behind_segment hl)
  refine ⟨tail, _, htail, fun params => ?_, hle, ?_, fun hnil hp => ?_⟩
  · rw [readNext_eq_of_meets hlen hmeets (by omega), NParam.paramID_found]
  · have hsplit : A ++ 32 :: p.item ++ junk ++ [32] =
        (A ++ 32 :: (printNumber 10 p.m_paramID.toNat ++ [58])) ++ (p.body ++ (junk ++ [32])) := by
      simp [hitem]
    rw [hsplit, List.drop_append, List.mem_append, not_or]
    refine ⟨?_, fun h => ?_⟩
    · rw [List.drop_eq_nil_of_le]
      · exact List.not_mem_nil
      · rw [behind, skipSpace]
        simp only [List.length_append, List.length_cons, List.length_nil]
        omega
    · have hmem := List.mem_of_mem_drop h
      simp only [List.mem_append, List.mem_singleton] at hmem
      rcases hmem with hmem | hmem | hmem
      · exact (NParam.body_spec p 58 hmem).1 rfl
      · exact (hjunk 58 hmem).1 rfl
      · exact absurd hmem (by decide)
  · have hwidth := NParam.width_item hp (htail hnil)
    rw [hitem, List.length_append, List.length_cons] at hwidth
    rw [behind, skipSpace, hlength, hnil, hwidth, List.length_nil]
    omega

/-! ## The loop -/

/-- What is read of a segment. -/
def Reads (x : NParam × List UInt8) (q : NParam) : Prop :=
  q.m_paramID = x.1.m_paramID ∧ ∃ tail, (x.2 = [] → NParam.restOfLine tail = []) ∧
    NParam.readPayload (NParam.found x.1.m_paramID (x.1.body ++ tail)) [] = .ok q.m_buff

/-- Behind the last param there is none. -/
theorem eq_of_run_nil {lib : Scanf} {A : List UInt8} {pos fuel : ℕ} {params : NParamBlock}
    {r : ℕ × NParamBlock} (hlen : (A ++ [10]).length < 2 ^ 31) (hpos : pos ≤ A.length + 1)
    (hcolon : 58 ∉ (A ++ [32]).drop pos)
    (hrun : whileLoop (unread (A ++ [10])) (readNext lib (A ++ [10])) fuel (pos, params) = .ok r) :
    r = (pos, params) := by
  have hlength : (A ++ [10]).length = A.length + 1 := List.length_append
  have hend : ¬pos + 1 < (A ++ [10]).length := by
    intro hlt
    obtain ⟨c, s, x, _, hmeets, _, _⟩ := meets_of_ends hlen hlt ⟨fuel, r, hrun⟩
    obtain ⟨hle, hget, _⟩ := indexFrom_eq_some.mp hmeets.colon
    have hc := indexFrom_lt_length hmeets.colon
    by_cases hlast : c < A.length
    · apply hcolon
      rw [List.getElem?_append_left hlast] at hget
      apply List.mem_of_getElem? (i := c - pos)
      rw [List.getElem?_drop, Nat.add_sub_cancel' hle, List.getElem?_append_left hlast, hget]
    · rw [List.getElem?_append_right (by omega), show c - A.length = 0 by omega] at hget
      exact absurd (Option.some.inj hget) (by decide)
  cases fuel with
  | zero => cases hrun
  | succ fuel =>
    rw [whileLoop, if_neg] at hrun
    · exact (Except.ok.inj hrun).symm
    · rw [unread_iff (by omega)]
      exact hend

/-- In front of a param there is something to read. -/
theorem unread_segment {A junk : List UInt8} {p : NParam} {l : List (NParam × List UInt8)} {pos : ℕ}
    (hlen : (segmentAt A p junk l).length < 2 ^ 31) (hpos : pos ≤ A.length + 1)
    (params : NParamBlock) : unread (segmentAt A p junk l) (pos, params) = true := by
  have hitem : p.item.length ≠ 0 := by
    rw [NParam.item, List.length_append]
    have := List.length_pos_of_ne_nil (printNumber_ne_nil 10 p.m_paramID.toNat)
    omega
  have hlength : (segmentAt A p junk l).length = A.length + 1 + p.item.length +
      (junk ++ (segmentsText l ++ [10])).length := by
    rw [segmentAt]
    simp only [List.length_append, List.length_cons]
    omega
  have hone : 0 < (junk ++ (segmentsText l ++ [10])).length := by
    simp only [List.length_append, List.length_singleton]
    omega
  apply (unread_iff (by omega)).mpr
  omega

/-- **A loop that ends** has read each param with a payload, in order, and no other. -/
theorem loop_segments {lib : Scanf} {l : List (NParam × List UInt8)} {A : List UInt8}
    {pos fuel : ℕ} {params : NParamBlock} {r : ℕ × NParamBlock}
    (hlen : (A ++ (segmentsText l ++ [10])).length < 2 ^ 31)
    (hl : ∀ x ∈ l, x.1.m_buff ≠ [] ∧ ∀ c ∈ x.2, c ≠ 58 ∧ c ≠ 10)
    (hpos : pos ≤ A.length + 1) (hcolon : 58 ∉ (A ++ [32]).drop pos)
    (hrun : whileLoop (unread (A ++ (segmentsText l ++ [10])))
      (readNext lib (A ++ (segmentsText l ++ [10]))) fuel (pos, params) = .ok r) :
    ∃ read, List.Forall₂ Reads l read ∧ r.2.m_params = params.m_params.insertAll read := by
  induction l generalizing A pos fuel params with
  | nil =>
    obtain rfl := eq_of_run_nil hlen hpos hcolon hrun
    exact ⟨[], .nil, rfl⟩
  | cons x l ih =>
    obtain ⟨p, junk⟩ := x
    obtain ⟨⟨hne, hjunk⟩, hl⟩ := List.forall_mem_cons.mp hl
    have htext : A ++ (segmentsText ((p, junk) :: l) ++ [10]) = segmentAt A p junk l := by
      simp [segmentAt, segmentsText]
    have hnext : segmentAt A p junk l = A ++ 32 :: p.item ++ junk ++ (segmentsText l ++ [10]) := by
      simp [segmentAt]
    rw [htext] at hlen hrun
    obtain ⟨tail, pos', htail, hread, hpos', hcolon', _⟩ :=
      readNext_segment lib hlen hne hjunk (fun x hx => (hl x hx).1) hpos hcolon
    have hunread := unread_segment hlen hpos params
    cases fuel with
    | zero => cases hrun
    | succ fuel =>
      rw [whileLoop_succ_of_guard hunread, hread] at hrun
      obtain ⟨next, hbody, hrest⟩ := Exec.bind_eq_ok.mp hrun
      obtain ⟨m_buff, hbuff, heq⟩ := Exec.bind_eq_ok.mp hbody
      obtain rfl := Except.ok.inj heq
      rw [hnext] at hlen hrest
      obtain ⟨read, hreads, hparams⟩ := ih hlen hl hpos' hcolon' hrest
      exact ⟨⟨p.m_paramID, m_buff⟩ :: read, .cons ⟨rfl, tail, htail, hbuff⟩ hreads, hparams⟩

/-- **Params that are read as they were dumped**: the loop ends, and has read them. -/
theorem exists_loop_of_recoverable (lib : Scanf) {ps : List NParam} {A : List UInt8} {pos : ℕ}
    (hps : ∀ p ∈ ps, p.Recoverable) (hlen : (A ++ (items ps ++ [10])).length < 2 ^ 31)
    (hpos : pos ≤ A.length + 1) (hcolon : 58 ∉ (A ++ [32]).drop pos)
    (hend : ps = [] → A.length ≤ pos) (params : NParamBlock) :
    ∃ fuel pos', pos' < 2 ^ 31 ∧ whileLoop (unread (A ++ (items ps ++ [10])))
      (readNext lib (A ++ (items ps ++ [10]))) fuel (pos, params) =
        .ok (pos', { params with m_params := params.m_params.insertAll ps }) := by
  induction ps generalizing A pos params with
  | nil =>
    have hlength : (A ++ (items [] ++ [10])).length = A.length + 1 := by simp [items]
    have hle := hend rfl
    have hunread : ¬unread (A ++ (items [] ++ [10])) (pos, params) = true := by
      rw [unread_iff (by omega)]
      omega
    exact ⟨1, pos, by omega, by rw [whileLoop, if_neg hunread]; rfl⟩
  | cons p ps ih =>
    obtain ⟨hp, hps⟩ := List.forall_mem_cons.mp hps
    have hsegments := segments_of_forall fun q hq => (hps q hq).nonempty
    have hitems : items ps = segmentsText (ps.map fun q => (q, [])) := by
      rw [items_eq, hsegments]
      rfl
    have htext : A ++ (items (p :: ps) ++ [10]) =
        segmentAt A p [] (ps.map fun q => (q, [])) := by
      rw [segmentAt, ← hitems]
      simp [items]
    have hnext : segmentAt A p [] (ps.map fun q => (q, [])) =
        A ++ 32 :: p.item ++ [] ++ (items ps ++ [10]) := by
      rw [segmentAt, ← hitems]
      simp
    have hl : ∀ x ∈ ps.map fun q => (q, ([] : List UInt8)), x.1.m_buff ≠ [] := by
      intro x hx
      obtain ⟨q, hq, rfl⟩ := List.mem_map.mp hx
      exact (hps q hq).nonempty
    rw [htext] at hlen ⊢
    obtain ⟨tail, pos', htail, hread, hpos', hcolon', hbehind⟩ :=
      readNext_segment lib hlen hp.nonempty (by simp) hl hpos hcolon
    have hunread := unread_segment hlen hpos params
    have hbuff := (NParam.readPayload_item_iff hp.nonempty (htail rfl)).mpr hp
    rw [hnext] at hlen
    obtain ⟨fuel, last, hlast, hloop⟩ := ih hps hlen hpos' hcolon' (fun _ => hbehind rfl hp)
      (params.addParam p)
    refine ⟨fuel + 1, last, hlast, ?_⟩
    rw [whileLoop_succ_of_guard hunread, hread, hbuff, Exec.ok_bind, Exec.ok_bind, hnext]
    exact hloop

/-! ## The text of a request -/

/-- What the loop of `dump` writes when nothing is left out. -/
theorem dumpFrom_eq {maxLen maxSame : ℕ} {ps : List NParam} {lastId nbrSameId : ℕ}
    (hlength : ∀ p ∈ ps, p.m_buff.length ≤ maxLen ∧ p.m_buff.length ≤ 65535)
    (hsame : ∀ id, (ps.countP fun p => p.m_paramID.toNat = id) ≤
      if id = lastId then maxSame - nbrSameId else maxSame + 1) (hne : ps ≠ []) :
    32 :: dumpFrom true maxLen maxSame lastId nbrSameId ps = items ps := by
  induction ps generalizing lastId nbrSameId with
  | nil => exact absurd rfl hne
  | cons p ps ih =>
    obtain ⟨hp, hps⟩ := List.forall_mem_cons.mp hlength
    have hcount := hsame p.m_paramID.toNat
    rw [List.countP_cons_of_pos (by simp)] at hcount
    have hnext : ∀ id, (ps.countP fun q => q.m_paramID.toNat = id) ≤
        if id = p.m_paramID.toNat then
          maxSame - (if p.m_paramID.toNat = lastId then nbrSameId + 1 else 0)
        else maxSame + 1 := by
      intro id
      have hid := hsame id
      rw [List.countP_cons] at hid
      by_cases heq : id = p.m_paramID.toNat
      · subst heq
        rw [if_pos rfl]
        split at hcount
        · rename_i h
          rw [if_pos h]
          omega
        · rename_i h
          rw [if_neg h]
          omega
      · have hmost : (if id = lastId then maxSame - nbrSameId else maxSame + 1) ≤ maxSame + 1 := by
          split <;> omega
        rw [if_neg heq]
        omega
    have hfew : ¬maxSame < (if p.m_paramID.toNat = lastId then nbrSameId + 1 else 0) := by
      split at hcount
      · rename_i h
        rw [if_pos h]
        omega
      · rename_i h
        rw [if_neg h]
        omega
    rw [dumpFrom, items, List.flatMap_cons, if_neg hfew, NParam.dump_eq_item hp.1 hp.2]
    cases ps with
    | nil => simp [dumpFrom]
    | cons q qs =>
      rw [← items, ← ih hps hnext (List.cons_ne_nil q qs)]
      simp

/-- What `dump` writes of a block with params. -/
theorem dump_eq {b : NParamBlock} {maxLen maxSame : ℕ} (hb : b.Complete maxLen maxSame)
    (hne : b.m_params.toList ≠ []) :
    b.dump true maxLen maxSame = chars "NParamBlock " ++
      (printNumber 10 b.m_params.toList.length ++ (chars " params" ++
        (items b.m_params.toList ++ [10]))) := by
  have hitems : 32 :: dumpFrom true maxLen maxSame 0 0 b.m_params.toList = _ :=
    dumpFrom_eq hb.length hb.same hne
  have hchars : chars " params " = chars " params" ++ [32] := by decide
  rw [dump, ← hitems, hchars]
  simp

/-- A field of the header is read. -/
theorem scan_field {name : String} (n : ℕ) (ds : List Directive) {r : List UInt8}
    (hname : (chars name).IsChain fun a b => isspace a = true → isspace b = false)
    (hr : ∀ c ∈ r.head?, isxdigit c = false) :
    scan (literal name ++ .hexadecimal :: ds) (field name n ++ r) = .number n :: scan ds r := by
  have hzero : ∀ c ∈ (chars "0x" ++ printNumber 16 n ++ r).head?, isspace c = false := by
    intro c hc
    obtain rfl := Option.some.inj hc
    decide
  rw [field, List.append_assoc, scan_literal _ hname hzero, scan_hexadecimal n ds hr]

/-- **The fields of a header** are read as they are. -/
theorem scan_fields (header : TextHeader) (ds : List Directive) {r : List UInt8}
    (hr : ∀ c ∈ r.head?, isspace c = false) :
    scan (fieldsFormat ++ ds) (fieldsText header ++ r) = .number header.protoVer.toNat ::
      .number header.type.toNat :: .number header.reqID.toNat :: .number header.reqVer.toNat ::
        scan ds r := by
  have hspace : ∀ {s t : List UInt8}, s.head? = some 32 →
      ∀ c ∈ (s ++ t).head?, isxdigit c = false := by
    intro s t hs c hc
    rw [List.head?_append, hs] at hc
    obtain rfl := Option.some.inj hc
    decide
  have hformat : fieldsFormat ++ ds = literal "protoVer " ++ .hexadecimal :: (literal " type " ++
      .hexadecimal :: (literal " reqID " ++ .hexadecimal :: (literal " reqVer " ++
        .hexadecimal :: (literal " " ++ ds)))) := by
    simp [fieldsFormat]
  rw [hformat, fieldsText]
  simp only [List.append_assoc]
  rw [scan_field _ _ (by decide) (hspace rfl), scan_field _ _ (by decide) (hspace rfl),
    scan_field _ _ (by decide) (hspace rfl), scan_field _ _ (by decide) (hspace rfl),
    scan_literal _ (by decide) hr]

/-- Everything up to the first param. -/
def before (header : TextHeader) (n : ℕ) : List UInt8 :=
  chars "NavRequest " ++ (fieldsText header ++
    (chars "NParamBlock " ++ (printNumber 10 n ++ chars " params")))

/-- The number of params is behind this. -/
def start (header : TextHeader) : ℕ := (chars "NavRequest " ++ fieldsText header).length + 12

theorem request_eq {header : TextHeader} {b : NParamBlock} {maxLen maxSame : ℕ}
    (hb : b.Complete maxLen maxSame) (hne : b.m_params.toList ≠ []) :
    request header b maxLen maxSame = before header b.m_params.toList.length ++
      (items b.m_params.toList ++ [10]) := by
  rw [request, dump_eq hb hne, before]
  simp only [List.append_assoc]

/-- The first `NavRequest` is at the beginning. -/
theorem indexOfWord_request (header : TextHeader) (b : NParamBlock) (maxLen maxSame : ℕ) :
    indexOfWord (chars "NavRequest") (request header b maxLen maxSame) = some 0 := by
  have hhead : chars "NavRequest" <+: (request header b maxLen maxSame).drop 0 := by
    have hchars : chars "NavRequest " = chars "NavRequest" ++ [32] := by decide
    rw [request, hchars, List.append_assoc]
    exact List.prefix_append _ _
  obtain ⟨j, hj, hle⟩ := indexOfWord_le hhead
  obtain rfl := Nat.le_zero.mp hle
  exact hj

/-- The first `NParamBlock` is behind the fields. -/
theorem indexOfBlock_request (header : TextHeader) (b : NParamBlock) (maxLen maxSame : ℕ) :
    indexOfWord (chars "NParamBlock") (request header b maxLen maxSame) =
      some (chars "NavRequest " ++ fieldsText header).length := by
  have hdigits : ∀ n, (78 : UInt8) ∉ printNumber 16 n := by
    intro n h
    exact absurd (isDigitOf_of_mem (Or.inr rfl) n 78 h) (by decide)
  have hfield : ∀ name n, (78 : UInt8) ∉ chars name → 78 ∉ field name n := by
    intro name n hname h
    rw [field] at h
    rcases List.mem_append.mp h with h | h
    · exact hname h
    · rcases List.mem_append.mp h with h | h
      · exact absurd h (by decide)
      · exact hdigits n h
  have hbefore : (78 : UInt8) ∉ chars "avRequest " ++ fieldsText header := by
    simp only [fieldsText, List.mem_append, not_or]
    exact ⟨by decide, hfield _ _ (by decide), hfield _ _ (by decide), hfield _ _ (by decide),
      hfield _ _ (by decide), by decide⟩
  have hblock : 78 :: chars "ParamBlock" <+: b.dump true maxLen maxSame := by
    have hchars : chars "NParamBlock " = 78 :: chars "ParamBlock" ++ [32] := by decide
    rw [dump, hchars]
    simp only [List.append_assoc]
    exact List.prefix_append _ _
  have hindex := indexOfWord_append hbefore hblock
  have hword : chars "NParamBlock" = 78 :: chars "ParamBlock" := by decide
  have htext : request header b maxLen maxSame =
      78 :: (chars "avRequest " ++ fieldsText header ++ b.dump true maxLen maxSame) := by
    rw [request, List.append_assoc]
    rfl
  have hnot : ¬78 :: chars "ParamBlock" <+:
      78 :: (chars "avRequest " ++ fieldsText header ++ b.dump true maxLen maxSame) := by
    intro h
    have htail := (List.cons_prefix_cons.mp h).2
    have hhead : (80 : UInt8) = 97 := (List.cons_prefix_cons.mp htail).1
    exact absurd hhead (by decide)
  rw [hword, htext, indexOfWord, if_neg hnot, hindex]
  rfl

/-- The fields of a header fit the variables that they are stored in. -/
theorem stored_fields (lib : Scanf) (header : TextHeader) :
    (⟨(lib.X header.protoVer.toNat).toUInt8, (lib.X header.type.toNat).toUInt16,
      (lib.X header.reqID.toNat).toUInt8, (lib.X header.reqVer.toNat).toUInt8⟩ : TextHeader) =
        header := by
  have height : ∀ n : UInt8, (lib.X n.toNat).toUInt8 = n := by
    intro n
    rw [← UInt8.toNat_toUInt32, lib.X_of_fits, UInt8.toUInt8_toUInt32]
  have hsixteen : ∀ n : UInt16, (lib.X n.toNat).toUInt16 = n := by
    intro n
    rw [← UInt16.toNat_toUInt32, lib.X_of_fits, UInt16.toUInt16_toUInt32]
  rw [height, hsixteen, height, height]

/-- Behind the word `NParamBlock` and a space are the number of params and the word `params`. -/
theorem dump_spec (b : NParamBlock) (maxLen maxSame : ℕ) :
    ∃ t, b.dump true maxLen maxSame = chars "NParamBlock " ++
      (printNumber 10 b.m_params.toList.length ++ (chars " params " ++ t)) ∧
        t = dumpFrom true maxLen maxSame 0 0 b.m_params.toList ++ [10] :=
  ⟨_, by simp [dump], rfl⟩

/-- **The header of a request** is accepted. -/
theorem scan_header (header : TextHeader) (b : NParamBlock) (maxLen maxSame : ℕ) :
    ∃ w, scan headerFormat (fieldsText header ++ b.dump true maxLen maxSame) =
      [.number header.protoVer.toNat, .number header.type.toNat, .number header.reqID.toNat,
        .number header.reqVer.toNat, .text w] := by
  obtain ⟨c, s, hcs⟩ := List.exists_cons_of_ne_nil
    (printNumber_ne_nil 10 b.m_params.toList.length)
  have hspace : isspace c = false :=
    (digit_spec (isDigitOf_of_mem (Or.inl rfl) b.m_params.toList.length c
      (by rw [hcs]; exact List.mem_cons_self))).1
  obtain ⟨t, ht, -⟩ := dump_spec b maxLen maxSame
  have hformat : literal "NParamBlock" ++ [.space, .word] =
      literal "NParamBlock " ++ [.word] := rfl
  have hhead : ∀ c ∈ (b.dump true maxLen maxSame).head?, isspace c = false := by
    intro c hc
    rw [ht] at hc
    obtain rfl := Option.some.inj hc
    decide
  obtain ⟨w, hw⟩ := scan_word hspace (s ++ (chars " params " ++ t))
  refine ⟨w, ?_⟩
  rw [headerFormat, hformat, scan_fields header _ hhead, ht, hcs, List.cons_append,
    scan_literal _ (by decide) (by simpa using hspace), hw]

theorem drop_request (header : TextHeader) (b : NParamBlock) (maxLen maxSame : ℕ) :
    start header ≤ (request header b maxLen maxSame).length ∧
      (request header b maxLen maxSame).drop (start header) =
        (b.dump true maxLen maxSame).drop 12 := by
  have htext : request header b maxLen maxSame =
      (chars "NavRequest " ++ fieldsText header) ++ b.dump true maxLen maxSame := by
    rw [request, List.append_assoc]
  have hlength : 12 ≤ (b.dump true maxLen maxSame).length := by
    have hchars : (chars "NParamBlock ").length = 12 := by decide
    rw [dump]
    simp only [List.length_append]
    omega
  rw [htext, start]
  constructor
  · simp only [List.length_append]
    omega
  · rw [List.drop_append, List.drop_eq_nil_of_le (by omega), Nat.add_sub_cancel_left]
    rfl

/-- **The header of a request** is read as it was written, whatever becomes of the params. -/
theorem readParams_request (lib : Scanf) (header : TextHeader) (b : NParamBlock)
    (maxLen maxSame fuel : ℕ) (h₀ : TextHeader) (params : NParamBlock) :
    (∀ n, scan paramsFormat ((b.dump true maxLen maxSame).drop 12) = [.number n] →
      readParams lib fuel (request header b maxLen maxSame) h₀ params =
        .ok (false, header, params)) ∧
    (∀ n w, scan paramsFormat ((b.dump true maxLen maxSame).drop 12) = [.number n, .text w] →
      readParams lib fuel (request header b maxLen maxSame) h₀ params = (do
        let (pos, params) ← whileLoop (unread (request header b maxLen maxSame))
          (readNext lib (request header b maxLen maxSame)) fuel (start header, params)
        .ok (pos != MAX_UINT32, header, params))) := by
  obtain ⟨w, hw⟩ := scan_header header b maxLen maxSame
  obtain ⟨hstart, hdrop⟩ := drop_request header b maxLen maxSame
  have hlength : (chars "NavRequest " ++ fieldsText header).length + 11 + 1 = start header := rfl
  have hfields : (request header b maxLen maxSame).drop (0 + 10 + 1) =
      fieldsText header ++ b.dump true maxLen maxSame := rfl
  have hlow : 0 + 10 + 1 ≤ (request header b maxLen maxSame).length := by
    rw [start] at hstart
    omega
  constructor
  · intro n hn
    simp only [readParams, indexOfWord_request, suffixAt_of_le hlow, Exec.ok_bind, hfields, hw,
      indexOfBlock_request, hlength, suffixAt_of_le hstart, hdrop, hn, stored_fields]
  · intro n w hn
    simp only [readParams, indexOfWord_request, suffixAt_of_le hlow, Exec.ok_bind, hfields, hw,
      indexOfBlock_request, hlength, suffixAt_of_le hstart, hdrop, hn, stored_fields]

/-- **The number of params** is accepted if there are any. -/
theorem scan_params (b : NParamBlock) (maxLen maxSame : ℕ) :
    (b.m_params.toList = [] →
      scan paramsFormat ((b.dump true maxLen maxSame).drop 12) = [.number 0]) ∧
    (b.m_params.toList ≠ [] → ∃ w, scan paramsFormat ((b.dump true maxLen maxSame).drop 12) =
      [.number b.m_params.toList.length, .text w]) := by
  obtain ⟨t, ht, hfrom⟩ := dump_spec b maxLen maxSame
  have hdrop : (b.dump true maxLen maxSame).drop 12 =
      printNumber 10 b.m_params.toList.length ++ (chars " params " ++ t) := by
    rw [ht]
    rfl
  have hformat : paramsFormat = .decimal :: (literal " params " ++ [.word]) := rfl
  have hnumber : ∀ c ∈ (chars " params " ++ t).head?, isdigit c = false := by
    intro c hc
    obtain rfl := Option.some.inj hc
    decide
  rw [hdrop, hformat, scan_decimal _ _ hnumber]
  constructor
  · intro hnil
    rw [hfrom, hnil]
    rfl
  · intro hne
    obtain ⟨p, ps, hps⟩ := List.exists_cons_of_ne_nil hne
    obtain ⟨c, s, hcs⟩ := List.exists_cons_of_ne_nil (printNumber_ne_nil 10 p.m_paramID.toNat)
    have hspace : isspace c = false := (digit_spec (isDigitOf_of_mem (Or.inl rfl)
      p.m_paramID.toNat c (by rw [hcs]; exact List.mem_cons_self))).1
    have hhead : ∃ u, t = c :: u := by
      rw [hfrom, hps, dumpFrom, NParam.dump]
      simp only [Bool.not_true, Bool.false_eq_true, if_false, hcs, List.cons_append]
      exact ⟨_, rfl⟩
    obtain ⟨u, rfl⟩ := hhead
    obtain ⟨w, hw⟩ := scan_word hspace u
    refine ⟨w, ?_⟩
    rw [scan_literal _ (by decide) (by simpa using hspace), hw]

/-! ## The round trip -/

/-- The number of params and the params in front of the first with a payload have no `:`. -/
theorem cursor_request (header : TextHeader) (ps : List NParam) :
    start header ≤ (before header ps.length ++ (segments ps).1).length + 1 ∧
      58 ∉ (before header ps.length ++ (segments ps).1 ++ [32]).drop (start header) := by
  have hsplit : before header ps.length = (chars "NavRequest " ++ (fieldsText header ++
      chars "NParamBlock ")) ++ (printNumber 10 ps.length ++ chars " params") := by
    simp only [before, List.append_assoc]
  have hstart : start header = (chars "NavRequest " ++ (fieldsText header ++
      chars "NParamBlock ")).length := by
    rw [start, ← List.append_assoc]
    simp only [List.length_append]
    rfl
  rw [hsplit, hstart]
  constructor
  · simp only [List.length_append]
    omega
  · have hassoc : chars "NavRequest " ++ (fieldsText header ++ chars "NParamBlock ") ++
        (printNumber 10 ps.length ++ chars " params") ++ (segments ps).1 ++ [32] =
          (chars "NavRequest " ++ (fieldsText header ++ chars "NParamBlock ")) ++
            (printNumber 10 ps.length ++ (chars " params" ++ ((segments ps).1 ++ [32]))) := by
      simp only [List.append_assoc]
    rw [hassoc, List.drop_left]
    simp only [List.mem_append, not_or]
    exact ⟨fun h => (printNumber_spec _ 58 h).1 rfl, by decide,
      fun h => (segments_fst ps 58 h).1 rfl, by decide⟩

/-- What is read of params that all have a payload, if it is the same number of params. -/
theorem recoverable_of_reads {b : NParamBlock} {read : List NParam}
    (hreads : List.Forall₂ Reads (segments b.m_params.toList).2 read)
    (heq : OrderedMultiset.empty.insertAll read = b.m_params) :
    ∀ p ∈ b.m_params.toList, p.Recoverable := by
  have hlength : read.length = b.m_params.toList.length := by
    rw [← heq, (OrderedMultiset.perm_insertAll _ _).length_eq]
    rfl
  obtain ⟨hfilter, -⟩ := segments_snd b.m_params.toList
  have hall : ∀ p ∈ b.m_params.toList, p.m_buff ≠ [] := by
    have hcount := hreads.length_eq
    rw [hlength, ← List.length_map (f := Prod.fst), hfilter, List.length_filter_eq_length_iff]
      at hcount
    simpa using hcount
  rw [segments_of_forall hall, List.forall₂_map_left_iff] at hreads
  have hkeys : b.m_params.toList.map NParam.key = read.map NParam.key := by
    rw [← List.forall₂_eq_eq_eq, List.forall₂_map_left_iff, List.forall₂_map_right_iff]
    exact hreads.imp fun p q h => congrArg UInt16.toNat h.1.symm
  have hsorted : read.Pairwise fun p q => NParam.key p ≤ NParam.key q := by
    rw [← List.pairwise_map (R := (· ≤ ·)), ← hkeys, List.pairwise_map]
    exact b.m_params.sorted
  have hread : read = b.m_params.toList := by
    have hlist := OrderedMultiset.toList_insertAll (s := OrderedMultiset.empty) hsorted
    rw [heq] at hlist
    exact hlist.symm
  rw [hread] at hreads
  intro p hp
  obtain ⟨-, tail, htail, hbuff⟩ := (List.forall₂_same.mp hreads) p hp
  exact (NParam.readPayload_item_iff (hall p hp) (htail rfl)).mp hbuff

/-- **A block is read as it was dumped** exactly if it has params, each with a payload, none of
which looks like the digits of another payload or like a text with a terminator. -/
theorem readParams_request_iff (lib : Scanf) {header : TextHeader} {b : NParamBlock}
    {maxLen maxSame : ℕ} (hb : b.Complete maxLen maxSame)
    (hlen : (request header b maxLen maxSame).length < 2 ^ 31) (h₀ : TextHeader) :
    (∃ fuel params, readParams lib fuel (request header b maxLen maxSame) h₀ NParamBlock.empty =
      .ok (true, header, params) ∧ params.m_params = b.m_params) ↔
        b.m_params.toList ≠ [] ∧ ∀ p ∈ b.m_params.toList, p.Recoverable := by
  obtain ⟨hnil, hcons⟩ := scan_params b maxLen maxSame
  have htext : b.m_params.toList ≠ [] → request header b maxLen maxSame = _ := request_eq hb
  obtain ⟨hpos, hcolon⟩ := cursor_request header b.m_params.toList
  constructor
  · rintro ⟨fuel, params, hread, hparams⟩
    have hne : b.m_params.toList ≠ [] := by
      intro h
      rw [(readParams_request lib header b maxLen maxSame fuel h₀ _).1 0 (hnil h)] at hread
      exact absurd (Prod.mk.inj (Except.ok.inj hread)).1 (by decide)
    refine ⟨hne, ?_⟩
    obtain ⟨w, hscan⟩ := hcons hne
    rw [(readParams_request lib header b maxLen maxSame fuel h₀ _).2 _ w hscan] at hread
    obtain ⟨r, hloop, hreturn⟩ := Exec.bind_eq_ok.mp hread
    obtain ⟨-, heq⟩ := Prod.mk.inj (Except.ok.inj hreturn)
    obtain ⟨-, rfl⟩ := Prod.mk.inj heq
    rw [htext hne, items_eq, List.append_assoc, ← List.append_assoc] at hlen hloop
    obtain ⟨read, hreads, hinsert⟩ := loop_segments hlen (segments_snd _).2 hpos hcolon hloop
    exact recoverable_of_reads hreads (hinsert.symm.trans hparams)
  · rintro ⟨hne, hall⟩
    obtain ⟨w, hscan⟩ := hcons hne
    rw [segments_of_forall fun p hp => (hall p hp).nonempty, List.append_nil] at hpos hcolon
    rw [htext hne] at hlen
    obtain ⟨fuel, pos, hlt, hloop⟩ := exists_loop_of_recoverable lib hall hlen hpos hcolon
      (fun h => absurd h hne) NParamBlock.empty
    have hlost : pos ≠ MAX_UINT32 := by
      rw [MAX_UINT32]
      omega
    refine ⟨fuel, { NParamBlock.empty with
      m_params := NParamBlock.empty.m_params.insertAll b.m_params.toList }, ?_,
        OrderedMultiset.insertAll_toList b.m_params⟩
    rw [(readParams_request lib header b maxLen maxSame fuel h₀ _).2 _ w hscan, htext hne, hloop,
      Exec.ok_bind]
    dsimp only
    rw [bne_iff_ne.mpr hlost]

/-- A string with a space and a terminator, and some bytes. -/
def stringAndBytes : NParamBlock where
  m_params := ⟨[⟨4, chars "wf6 s" ++ [0]⟩, ⟨6, [0, 58, 120]⟩], by decide⟩
  m_valid := true
  m_flags := 0

/-- It is read from `4:wf6 s. 6:0x003a78;..x`. -/
theorem readParams_request_stringAndBytes : ∃ fuel params,
    readParams Scanf.truncating fuel (request ⟨0xc, 0x46, 0, 1⟩ stringAndBytes 35 2) ⟨0, 0, 0, 0⟩
      NParamBlock.empty = .ok (true, ⟨0xc, 0x46, 0, 1⟩, params) ∧
        params.m_params = stringAndBytes.m_params := by
  have hcomplete : stringAndBytes.Complete 35 2 := by
    refine ⟨by decide, fun id => ?_⟩
    have hcount := List.countP_le_length (l := stringAndBytes.m_params.toList)
      (p := fun p => p.m_paramID.toNat = id)
    have htwo : stringAndBytes.m_params.toList.length = 2 := rfl
    split <;> omega
  have hall : ∀ p ∈ stringAndBytes.m_params.toList, p.Recoverable := by
    refine List.forall_mem_cons.mpr ⟨⟨by decide, fun _ => by decide, fun _ => by decide⟩,
      List.forall_mem_singleton.mpr ⟨by decide, fun _ => by decide, fun _ => by decide⟩⟩
  exact (readParams_request_iff Scanf.truncating hcomplete (by decide +kernel) _).mpr
    ⟨by decide, hall⟩

end CppCore.Ngp.NParamBlock
