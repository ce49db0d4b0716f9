import CppCore.Ngp.NParamBlock

/-!
# The grammar of param blocks

Below protocol version `0xc` a param block is nothing but records, so the parser has to accept
exactly the concatenations of complete records.  It reads bytes that are none as far as it can
and keeps the records before the first incomplete one.

## Main definitions

* `LongestRecords` — the longest sequence of complete records at the front of some bytes.
* `sortRecords` — records sorted by their id, repeated ids in the order they came in.
* `NParamBlock.ofBuffer_grammar` — what the parser accepts, what it reads and what is written
  when a block it accepted is encoded again.
-/

namespace CppCore.Ngp

open Lib

/-- `rs` is the longest sequence of complete records whose encoding `bytes` starts with. -/
structure LongestRecords (bytes : List UInt8) (rs : List Record) : Prop where
  /-- The payloads fit the length field. -/
  fits : ∀ r ∈ rs, r.Fits
  /-- The records stand at the front. -/
  front : encodeRecords rs <+: bytes
  /-- Every other sequence that does is a beginning of this one. -/
  longest : ∀ rs' : List Record, (∀ r ∈ rs', r.Fits) → encodeRecords rs' <+: bytes → rs' <+: rs

/-- The records, stably sorted by their id. -/
def sortRecords (rs : List Record) : List Record := rs.mergeSort fun r₁ r₂ => r₁.1 ≤ r₂.1

theorem sortRecords_perm (rs : List Record) : (sortRecords rs).Perm rs := List.mergeSort_perm rs _

/-- The records the parser reads are the longest sequence at the front. -/
theorem longestRecords_parseRecords (bytes : List UInt8) :
    LongestRecords bytes (parseRecords bytes).1 := by
  obtain ⟨hfits, rest, hbytes, -⟩ := parseRecords_spec bytes
  exact ⟨hfits, ⟨rest, hbytes.symm⟩, fun rs' hrs' hfront => prefix_parseRecords hrs' hfront⟩

/-- The parser reports that nothing is left over exactly for sequences of complete records. -/
theorem parseRecords_complete_iff (bytes : List UInt8) :
    (parseRecords bytes).2 = true ↔
      ∃ rs : List Record, (∀ r ∈ rs, r.Fits) ∧ bytes = encodeRecords rs := by
  constructor
  · intro hcomplete
    exact ⟨(parseRecords bytes).1, parseRecords_eq_true.mp (Prod.ext rfl hcomplete)⟩
  · rintro ⟨rs, hrs⟩
    rw [parseRecords_eq_true.mpr hrs]

namespace NParamBlock

/-- Adding records to a block without params sorts them stably. -/
theorem toList_addRecords_empty (rs : List Record) (complete : Bool) :
    (empty.addRecords rs complete).m_params.toList = (sortRecords rs).map ofRecord := by
  have hmap : (sortRecords rs).map ofRecord =
      (rs.map ofRecord).mergeSort fun p₁ p₂ => p₁.key ≤ p₂.key := by
    refine List.map_mergeSort fun r₁ _ r₂ _ => ?_
    rfl
  rw [hmap]
  exact OrderedMultiset.toList_insertAll_empty _

/-- Below version `0xc` nothing is compressed: the records are appended. -/
theorem writeParams_old (zip : GunzipUtil) (b : NParamBlock) (buff : List UInt8) {protVer : UInt8}
    (hver : protVer < 0xc) (mayUseGzip : Bool) :
    b.writeParams zip buff protVer mayUseGzip =
      .ok (buff ++ encodeRecords (b.m_params.toList.map toRecord)) := by
  have hver' : ¬0xc ≤ protVer := UInt8.not_le.mpr hver
  simp only [writeParams, hver', false_and, if_false, foldl_writeTo]
  simp

/-- **The parser accepts exactly its grammar.**  Its params are the longest sequence of complete
records at the front, stably sorted by id; a block is valid exactly if these are all of the
bytes, and encoding a valid one again gives its records in the sorted order, a rearrangement of
the input. -/
theorem ofBuffer_grammar (zip : GunzipUtil) (bytes : List UInt8) (hbound : bytes.length < 2 ^ 31)
    {protVer : UInt8} (hver : protVer < 0xc) :
    ∃ (block : NParamBlock) (rs : List Record),
      ofBuffer zip (some bytes) bytes.length protVer = .ok block ∧ LongestRecords bytes rs ∧
      block.m_params.toList = (sortRecords rs).map ofRecord ∧
      (block.getValid = true ↔
        ∃ rs' : List Record, (∀ r ∈ rs', r.Fits) ∧ bytes = encodeRecords rs') ∧
      (block.getValid = true → bytes = encodeRecords rs ∧
        (∀ (buff : List UInt8) (protVer' : UInt8) (mayUseGzip : Bool), protVer' < 0xc →
          block.writeParams zip buff protVer' mayUseGzip =
            .ok (buff ++ encodeRecords (sortRecords rs))) ∧
        (sortRecords rs).Perm rs ∧ (encodeRecords (sortRecords rs)).Perm bytes ∧
        (encodeRecords (sortRecords rs)).length = bytes.length) := by
  have hparse := ofBuffer_old zip (le_refl bytes.length) hbound hver
  rw [List.take_length] at hparse
  have hparams := toList_addRecords_empty (parseRecords bytes).1 (parseRecords bytes).2
  refine ⟨_, (parseRecords bytes).1, hparse, longestRecords_parseRecords bytes, hparams,
    parseRecords_complete_iff bytes, fun hvalid => ?_⟩
  have hcomplete : (parseRecords bytes).2 = true := hvalid
  have hbytes : bytes = encodeRecords (parseRecords bytes).1 :=
    (parseRecords_eq_true.mp (Prod.ext rfl hcomplete)).2
  have hperm : (encodeRecords (sortRecords (parseRecords bytes).1)).Perm bytes := by
    have := (sortRecords_perm (parseRecords bytes).1).flatMap_right encodeRecord
    exact this.trans (List.Perm.of_eq hbytes.symm)
  refine ⟨hbytes, fun buff protVer' mayUseGzip hver' => ?_, sortRecords_perm _, hperm,
    hperm.length_eq⟩
  rw [writeParams_old zip _ buff hver' mayUseGzip, hparams]
  simp [Function.comp_def]

/-- Two records with the same id behind one with a greater id, and two stray bytes. -/
theorem ofBuffer_grammar_stray :
    ∃ (block : NParamBlock) (rs : List Record),
      ofBuffer GunzipUtil.stub
        (some [0, 9, 0, 1, 7, 0, 2, 0, 1, 5, 0, 2, 0, 0, 0, 3]) 16 0xb = .ok block ∧
      block.m_params.toList = (sortRecords rs).map ofRecord ∧
      ¬block.getValid = true := by
  obtain ⟨block, rs, hof, -, hparams, -, -⟩ := ofBuffer_grammar GunzipUtil.stub
    [0, 9, 0, 1, 7, 0, 2, 0, 1, 5, 0, 2, 0, 0, 0, 3] (by decide)
    (by decide : (0xb : UInt8) < 0xc)
  refine ⟨block, rs, hof, hparams, ?_⟩
  have hval : ofBuffer GunzipUtil.stub
      (some [0, 9, 0, 1, 7, 0, 2, 0, 1, 5, 0, 2, 0, 0, 0, 3]) 16 0xb =
        .ok (empty.addRecords [(9, [7]), (2, [5]), (2, [])] false) := by decide
  obtain rfl := Exec.unique hof hval
  decide

end NParamBlock

end CppCore.Ngp
