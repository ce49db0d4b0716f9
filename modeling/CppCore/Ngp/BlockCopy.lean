import CppCore.Ngp.NavPacket
import Mathlib.Logic.Function.Basic

/-!
# Copying and comparing blocks

`NParamBlock::assignToThis` clears the target, inserts the params of the source one after the
other, and copies the scratch key and the validity, but not the flags.  Source and target may be
the same block, which is then cleared before it is read.

`operator ==` of a block compares the params with that of `NParam`, which looks at the id alone.

Blocks are at addresses, so that the two sides of an assignment can be one block.

## Main definitions

* `NParamBlock.assign` — `assignToThis` for a target and a source at their addresses.
* `NParamBlock.eq`, `NavPacket.eq` — the comparisons.
* `NParamBlock.Agrees` — no observer tells two blocks apart; `agrees_iff` what that means.
* `NParamBlock.Sound`, `copying_sound_iff` — copying and comparing are as they should be, and when.
-/

namespace CppCore.Ngp

open Lib

/-! ## The operations -/

/-- `NParam::operator ==`. -/
def NParam.eq (a b : NParam) : Bool := a.m_paramID == b.m_paramID

namespace NParamBlock

/-- `NParamBlock::getAllParams`: the params with the id. -/
def getAllParams (b : NParamBlock) (paramID : UInt16) : List NParam :=
  b.m_params.toList.filter fun p => p.key = paramID.toNat

/-- `NParamBlock::operator ==`. -/
def eq (a b : NParamBlock) : Bool :=
  List.isEqv a.m_params.toList b.m_params.toList NParam.eq && a.m_valid == b.m_valid &&
    a.m_flags == b.m_flags

/-- `m_params.insert( *it )` for the block at `this`. -/
def insertAt (this : ℕ) (blocks : ℕ → NParamBlock) (param : NParam) : ℕ → NParamBlock :=
  Function.update blocks this ((blocks this).addParam param)

/-- `NParamBlock::assignToThis( p )` of the block at `this`, for the one at `p`. -/
def assign (blocks : ℕ → NParamBlock) (this p : ℕ) : ℕ → NParamBlock :=
  let blocks := Function.update blocks this
    { blocks this with m_params := OrderedMultiset.empty }
  -- inserting into another block leaves the one that is read alone, and the same one is empty
  let blocks := (blocks p).m_params.toList.foldl (insertAt this) blocks
  Function.update blocks this { blocks this with m_valid := (blocks p).m_valid }

end NParamBlock

/-- `NavPacket::operator ==`. -/
def NavPacket.eq (a b : NavPacket) : Bool :=
  a.m_protoVer == b.m_protoVer && a.m_type == b.m_type && a.m_reqID == b.m_reqID &&
    a.m_reqVer == b.m_reqVer && a.m_params.eq b.m_params

namespace NParamBlock

/-! ## What an assignment does -/

variable {blocks : ℕ → NParamBlock} {this p : ℕ}

/-- The params are inserted into the block at `this`. -/
private theorem foldl_insertAt (l : List NParam) (blocks : ℕ → NParamBlock) :
    l.foldl (insertAt this) blocks = Function.update blocks this
      { blocks this with m_params := (blocks this).m_params.insertAll l } := by
  induction l generalizing blocks with
  | nil => simp
  | cons a l ih =>
    rw [List.foldl_cons, ih, insertAt, Function.update_idem, Function.update_self]
    rfl

/-- **From another block** the params and the validity are taken over, not the flags. -/
theorem assign_of_ne (h : p ≠ this) :
    assign blocks this p = Function.update blocks this ((blocks this).assignToThis (blocks p)) := by
  simp only [assign, Function.update_of_ne h, foldl_insertAt, Function.update_self,
    Function.update_idem]
  rfl

/-- **From itself** a block loses its params. -/
theorem assign_self : assign blocks this this = Function.update blocks this
    { blocks this with m_params := OrderedMultiset.empty } := by
  simp [assign]

/-! ## Observers -/

/-- No observer tells two blocks apart. -/
structure Agrees (a b : NParamBlock) : Prop where
  getParam : ∀ paramID, a.getParam paramID = b.getParam paramID
  getAllParams : ∀ paramID, a.getAllParams paramID = b.getAllParams paramID
  writeParams : ∀ zip buff protVer gzip,
    a.writeParams zip buff protVer gzip = b.writeParams zip buff protVer gzip
  getValid : a.getValid = b.getValid
  mayUseGzip : a.mayUseGzip = b.mayUseGzip

/-- The bytes of the params of a block. -/
def records (b : NParamBlock) : List UInt8 := encodeRecords (b.m_params.toList.map toRecord)

variable {a b : NParamBlock}

/-- What is written is determined by the bytes of the params. -/
theorem writeParams_congr (h : a.records = b.records) (zip : GunzipUtil) (buff : List UInt8)
    (protVer : UInt8) (gzip : Bool) :
    a.writeParams zip buff protVer gzip = b.writeParams zip buff protVer gzip := by
  simp only [records] at h
  simp only [writeParams, foldl_writeTo, h]

/-- The bytes of the params are what is written below version `0xc`. -/
theorem records_of_writeParams {zip : GunzipUtil}
    (h : a.writeParams zip [] 0 = b.writeParams zip [] 0) : a.records = b.records := by
  rw [writeParams_eq, writeParams_eq] at h
  exact Except.ok.inj h

/-- Blocks with the same params under every id have the same params. -/
theorem toList_of_getAllParams (h : ∀ paramID, a.getAllParams paramID = b.getAllParams paramID) :
    a.m_params.toList = b.m_params.toList := by
  apply eq_of_filter_key a.m_params.sorted b.m_params.sorted
  intro k
  by_cases hk : k < 2 ^ 16
  · have hfilter := h (UInt16.ofNat k)
    rwa [getAllParams, getAllParams, UInt16.toNat_ofNat', Nat.mod_eq_of_lt hk] at hfilter
  · have hnone : ∀ l : List NParam, l.filter (fun q => q.key = k) = [] := by
      intro l
      apply List.filter_eq_nil_iff.mpr
      intro q _
      have hlt := q.m_paramID.toNat_lt
      have hne : q.key ≠ k := by
        rw [NParam.key]
        omega
      simpa using hne
    rw [hnone, hnone]

/-- **Observers see** the params, the validity and the one flag. -/
theorem agrees_iff : Agrees a b ↔
    a.m_params.toList = b.m_params.toList ∧ a.m_valid = b.m_valid ∧
      a.mayUseGzip = b.mayUseGzip := by
  constructor
  · intro h
    exact ⟨toList_of_getAllParams h.getAllParams, h.getValid, h.mayUseGzip⟩
  · rintro ⟨hparams, hvalid, hgzip⟩
    refine ⟨fun paramID => ?_, fun paramID => ?_, ?_, hvalid, hgzip⟩
    · simp only [getParam, OrderedMultiset.find, hparams]
    · simp only [getAllParams, hparams]
    · exact writeParams_congr (by rw [records, records, hparams])

/-! ## When copying and comparing are sound -/

/-- After an assignment the target is what the source was, blocks that compare equal are written
as the same bytes, and so are packets with them. -/
structure Sound (blocks : ℕ → NParamBlock) (this p : ℕ) : Prop where
  assign : Agrees (assign blocks this p this) (blocks p)
  writeParams : (blocks this).eq (blocks p) = true → ∀ zip buff protVer,
    (blocks this).writeParams zip buff protVer = (blocks p).writeParams zip buff protVer
  writeTo : ∀ q r : NavPacket, q.m_params = blocks this → r.m_params = blocks p →
    q.eq r = true → ∀ zip buff,
      q.writeTo zip (NavPacket.appends []) buff = r.writeTo zip (NavPacket.appends []) buff

/-- The params agree with their payloads.  Those that do not may still be written alike if a
payload is too long for the length field. -/
def SameParams (a b : NParamBlock) : Prop :=
  a.m_params.toList = b.m_params.toList ∨
    ((∃ q ∈ a.m_params.toList ++ b.m_params.toList, 65535 < q.m_buff.length) ∧
      a.records = b.records)

/-- Params that fit the length field are known from their bytes. -/
theorem toList_of_records (ha : ∀ q ∈ a.m_params.toList, q.m_buff.length ≤ 65535)
    (hb : ∀ q ∈ b.m_params.toList, q.m_buff.length ≤ 65535) (h : a.records = b.records) :
    a.m_params.toList = b.m_params.toList := by
  have hparse : ∀ {l : List NParam}, (∀ q ∈ l, q.m_buff.length ≤ 65535) →
      parseRecords (encodeRecords (l.map toRecord)) = (l.map toRecord, true) := by
    intro l hl
    refine parseRecords_eq_true.mpr ⟨?_, rfl⟩
    intro r hr
    obtain ⟨q, hq, rfl⟩ := List.mem_map.mp hr
    exact Nat.lt_succ_of_le (hl q hq)
  have hrecords := hparse ha
  rw [← records, h, records, hparse hb] at hrecords
  have hmap := congrArg (List.map ofRecord) (Prod.mk.inj hrecords).1
  rwa [map_ofRecord_toRecord, map_ofRecord_toRecord, eq_comm] at hmap

theorem sameParams_iff : SameParams a b ↔ a.records = b.records := by
  constructor
  · rintro (hparams | ⟨-, hrecords⟩)
    · rw [records, records, hparams]
    · exact hrecords
  · intro hrecords
    by_cases hlong : ∃ q ∈ a.m_params.toList ++ b.m_params.toList, 65535 < q.m_buff.length
    · exact .inr ⟨hlong, hrecords⟩
    · push Not at hlong
      refine .inl (toList_of_records (fun q hq => ?_) (fun q hq => ?_) hrecords)
      · exact hlong q (List.mem_append_left _ hq)
      · exact hlong q (List.mem_append_right _ hq)

/-- Assigning is as it should be from an empty block to itself, and from another block when both
may use gzip or neither. -/
theorem agrees_assign_iff : Agrees (assign blocks this p this) (blocks p) ↔
    (p = this → (blocks p).m_params.toList = []) ∧
      (p ≠ this → (blocks this).mayUseGzip = (blocks p).mayUseGzip) := by
  rw [agrees_iff]
  by_cases h : p = this
  · subst h
    rw [assign_self, Function.update_self]
    simp [mayUseGzip, eq_comm]
  · rw [assign_of_ne h, Function.update_self, assignToThis_eq]
    simp [mayUseGzip, h]

/-- Packets that compare equal and whose blocks are written alike are written alike. -/
theorem writeTo_congr {q r : NavPacket} (heq : q.eq r = true)
    (h : q.m_params.records = r.m_params.records) (zip : GunzipUtil) (buff : List UInt8) :
    q.writeTo zip (NavPacket.appends []) buff = r.writeTo zip (NavPacket.appends []) buff := by
  simp only [NavPacket.eq, Bool.and_eq_true, beq_iff_eq] at heq
  obtain ⟨⟨⟨⟨hver, htype⟩, hid⟩, hreq⟩, -⟩ := heq
  have hheader : q.fixedHeader = r.fixedHeader := by
    rw [NavPacket.fixedHeader, NavPacket.fixedHeader, hver, htype, hid, hreq]
  simp only [NavPacket.writeTo, NavPacket.writeToInternal, writeParamsInto, hheader, hver,
    writeParams_congr h zip _ _ false]

/-- **Copying and comparing are sound exactly when** the block is empty if it is assigned to
itself, both sides agree on gzip if they are two blocks, and blocks that compare equal have
the same payloads. -/
theorem copying_sound_iff (blocks : ℕ → NParamBlock) (this p : ℕ) : Sound blocks this p ↔
    (p = this → (blocks p).m_params.toList = []) ∧
      (p ≠ this → (blocks this).mayUseGzip = (blocks p).mayUseGzip) ∧
      ((blocks this).eq (blocks p) = true → SameParams (blocks this) (blocks p)) := by
  constructor
  · intro h
    obtain ⟨hself, hgzip⟩ := agrees_assign_iff.mp h.assign
    refine ⟨hself, hgzip, fun heq => ?_⟩
    exact sameParams_iff.mpr (records_of_writeParams (h.writeParams heq GunzipUtil.stub [] 0))
  · rintro ⟨hself, hgzip, hsame⟩
    refine ⟨agrees_assign_iff.mpr ⟨hself, hgzip⟩, ?_, ?_⟩
    · intro heq zip buff protVer
      exact writeParams_congr (sameParams_iff.mp (hsame heq)) zip buff protVer false
    · intro q r hq hr heq zip buff
      have hblocks : q.m_params.eq r.m_params = true := by
        rw [NavPacket.eq, Bool.and_eq_true] at heq
        exact heq.2
      rw [hq, hr] at hblocks
      have hrecords := sameParams_iff.mp (hsame hblocks)
      rw [← hq, ← hr] at hrecords
      exact writeTo_congr heq hrecords zip buff

/-- Two blocks with the same id and other payloads compare equal. -/
theorem not_forall_copying_sound : ¬∀ blocks this p, Sound blocks this p := by
  intro h
  let blocks : ℕ → NParamBlock := fun i => if i = 0 then addRecords empty [(7, [1])] else
    addRecords empty [(7, [2])]
  have hwritten := (h blocks 0 1).writeParams (by decide) GunzipUtil.stub [] 0
  exact absurd hwritten (by decide)

end NParamBlock

end CppCore.Ngp
