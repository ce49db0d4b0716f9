import CppCore.Lib.Multimap
import CppCore.Ngp.BlockCopy

/-!
# A block as a multimap

`NParamBlock` keeps its params in a `std::multiset` that is ordered by their ids.  Lookups set the
id of a scratch param and search for that; `updateParam` changes the payload of the param it finds
in place, and not its id.

Seen from outside a block is a list of ids and payloads in the order of the ids, where params with
one id are in the order in which they were added.

## Main definitions

* `NParamBlock.updateParam`, `NParamBlock.removeParam`, `NParamBlock.appendAllParams` — the
  operations on top of `addParam` and `getParam`.
* `BlockOp.apply`, `BlockOp.meaning` — an operation of a block, and of the list.
* `NParamBlock.Refines` — the block is the list for everybody who looks.
* `run_refines` — it is, after any operations on an empty block.
-/

namespace CppCore.Ngp

open Lib

/-- The order of ids. -/
instance linearOrderID : LinearOrder UInt16 where
  le_refl := UInt16.le_refl
  le_trans _ _ _ := UInt16.le_trans
  le_antisymm _ _ := UInt16.le_antisymm
  le_total := UInt16.le_total
  lt_iff_le_not_ge a b := by
    rw [UInt16.lt_iff_toNat_lt, UInt16.le_iff_toNat_le, UInt16.le_iff_toNat_le]
    exact Nat.lt_iff_le_and_not_ge
  toDecidableLE := inferInstance

/-! ## The operations -/

/-- `NParam::setBuff`. -/
def NParam.setBuff (p : NParam) (buff : List UInt8) : NParam := { p with m_buff := buff }

theorem NParam.key_setBuff (buff : List UInt8) (p : NParam) : (p.setBuff buff).key = p.key := rfl

namespace NParamBlock

/-- `NParamBlock::updateParam`; the reference it returns is the param it changed or added. -/
def updateParam (b : NParamBlock) (param : NParam) : NParamBlock :=
  match b.m_params.find param.key with
  | some _ =>
    { b with
      m_params := b.m_params.modifyFirst param.key (fun p => p.setBuff param.m_buff)
        (NParam.key_setBuff param.m_buff) }
  | none => b.addParam param

/-- `NParamBlock::removeParam`; the id becomes a param without a payload. -/
def removeParam (b : NParamBlock) (paramID : UInt16) : NParamBlock :=
  { b with m_params := b.m_params.erase (NParam.ofID paramID).key }

/-- `NParamBlock::getAllParams` with the vector it appends to. -/
def appendAllParams (b : NParamBlock) (paramID : UInt16) (params : List NParam) : List NParam :=
  params ++ b.m_params.equalRange paramID.toNat

theorem appendAllParams_eq (b : NParamBlock) (paramID : UInt16) (params : List NParam) :
    b.appendAllParams paramID params = params ++ b.getAllParams paramID := by
  rw [appendAllParams, OrderedMultiset.equalRange_eq_filter, getAllParams]

/-! ## What the params mean -/

/-- The pairs of a block, in its order. -/
def pairs (b : NParamBlock) : List Record := b.m_params.toList.map toRecord

theorem key_le_iff (p q : NParam) : p.key ≤ q.key ↔ (toRecord p).1 ≤ (toRecord q).1 :=
  UInt16.le_iff_toNat_le.symm

theorem key_eq_iff (paramID : UInt16) (p : NParam) :
    p.key = paramID.toNat ↔ (toRecord p).1 = paramID :=
  UInt16.toNat_inj

/-- A block is sorted. -/
theorem sorted_pairs (b : NParamBlock) : Multimap.Sorted b.pairs := by
  rw [Multimap.Sorted, pairs, List.pairwise_map]
  exact b.m_params.sorted.imp fun h => (key_le_iff _ _).mp h

theorem pairs_addParam (b : NParamBlock) (param : NParam) :
    (b.addParam param).pairs = Multimap.add b.pairs (toRecord param) :=
  OrderedMultiset.map_insert key_le_iff b.m_params param

theorem pairs_removeParam (b : NParamBlock) (paramID : UInt16) :
    (b.removeParam paramID).pairs = Multimap.remove b.pairs paramID :=
  OrderedMultiset.map_erase (key_eq_iff paramID) b.m_params

/-- The first param with an id is the first pair with it. -/
theorem map_getParam (b : NParamBlock) (paramID : UInt16) :
    (b.getParam paramID).map toRecord = (Multimap.all b.pairs paramID).head? :=
  OrderedMultiset.map_find (key_eq_iff paramID) b.m_params

theorem map_getAllParams (b : NParamBlock) (paramID : UInt16) :
    (b.getAllParams paramID).map toRecord = Multimap.all b.pairs paramID := by
  rw [getAllParams, ← OrderedMultiset.equalRange_eq_filter]
  exact OrderedMultiset.map_equalRange (key_eq_iff paramID) b.m_params

/-- **Updating in place**: the id stays, and so does the place. -/
theorem pairs_updateParam (b : NParamBlock) (param : NParam) :
    (b.updateParam param).pairs = Multimap.update b.pairs (toRecord param) := by
  have hfirst := b.map_getParam param.m_paramID
  rw [updateParam, Multimap.update]
  cases hfind : b.m_params.find param.key with
  | none =>
    have hnone : b.getParam param.m_paramID = none := hfind
    rw [hnone] at hfirst
    have hnil : Multimap.all b.pairs (toRecord param).1 = [] :=
      List.head?_eq_none_iff.mp hfirst.symm
    rw [if_pos hnil]
    exact b.pairs_addParam param
  | some p =>
    have hsome : b.getParam param.m_paramID = some p := hfind
    rw [hsome] at hfirst
    have hne : Multimap.all b.pairs (toRecord param).1 ≠ [] := by
      intro hnil
      change Multimap.all b.pairs param.m_paramID = [] at hnil
      rw [hnil] at hfirst
      cases hfirst
    rw [if_neg hne]
    refine OrderedMultiset.map_modifyFirst (p := toRecord param)
      (NParam.key_setBuff param.m_buff) (key_eq_iff param.m_paramID) ?_ b.m_params
    intro q hq
    exact Prod.ext ((key_eq_iff _ q).mp hq) rfl

end NParamBlock

/-! ## Runs -/

/-- The operations that change a block. -/
inductive BlockOp
  | addParam (param : NParam)
  | updateParam (param : NParam)
  | removeParam (paramID : UInt16)

namespace BlockOp

/-- The id it is about. -/
def paramID : BlockOp → UInt16
  | addParam param => param.m_paramID
  | updateParam param => param.m_paramID
  | removeParam paramID => paramID

/-- What it does to a block. -/
def apply (b : NParamBlock) : BlockOp → NParamBlock
  | addParam param => b.addParam param
  | updateParam param => b.updateParam param
  | removeParam paramID => b.removeParam paramID

/-- What it does to the list of pairs. -/
def meaning (l : List Record) : BlockOp → List Record
  | addParam param => Multimap.add l (param.m_paramID, param.m_buff)
  | updateParam param => Multimap.update l (param.m_paramID, param.m_buff)
  | removeParam paramID => Multimap.remove l paramID

/-- One operation. -/
theorem pairs_apply (b : NParamBlock) (op : BlockOp) : (apply b op).pairs = meaning b.pairs op := by
  cases op with
  | addParam param => exact b.pairs_addParam param
  | updateParam param => exact b.pairs_updateParam param
  | removeParam paramID => exact b.pairs_removeParam paramID

/-- Any number of operations. -/
theorem pairs_foldl (b : NParamBlock) (ops : List BlockOp) :
    (ops.foldl apply b).pairs = ops.foldl meaning b.pairs := by
  induction ops generalizing b with
  | nil => rfl
  | cons op ops ih => rw [List.foldl_cons, List.foldl_cons, ih, pairs_apply]

/-- **The pairs of other ids stay.** -/
theorem all_meaning_of_ne {l : List Record} (h : Multimap.Sorted l) {op : BlockOp} {id : UInt16}
    (hid : op.paramID ≠ id) : Multimap.all (meaning l op) id = Multimap.all l id := by
  cases op with
  | addParam param =>
    rw [meaning, Multimap.all_add h]
    exact (congrArg _ (if_neg hid)).trans (List.append_nil _)
  | updateParam param => exact Multimap.all_update_of_ne h hid
  | removeParam paramID => exact Multimap.all_remove_of_ne l hid

end BlockOp

/-- Whoever looks at the block sees the list. -/
structure NParamBlock.Refines (b : NParamBlock) (l : List Record) : Prop where
  /-- The params are the pairs, in this order. -/
  pairs : b.pairs = l
  /-- The order is that of the ids. -/
  sorted : Multimap.Sorted l
  /-- `getParam` returns the first pair of an id, or none. -/
  getParam : ∀ id, (b.getParam id).map NParamBlock.toRecord = (Multimap.all l id).head?
  /-- `getAllParams` appends all of them. -/
  getAllParams : ∀ id params, (b.appendAllParams id params).map NParamBlock.toRecord =
    params.map NParamBlock.toRecord ++ Multimap.all l id
  /-- `writeParams` writes the list behind the flags. -/
  writeParams : ∀ zip buff protVer, b.writeParams zip buff protVer = .ok (buff ++
    ((if 0xc ≤ protVer then be32 (NParamBlock.writtenFlags zip) else []) ++ encodeRecords l))
  /-- So it does when it may gzip, and then it gzips exactly that. -/
  writeParams_gzip : ∀ zip buff protVer,
    b.writeParams zip buff protVer true = NParamBlock.writePairs zip l buff protVer true
  /-- No operation changes the pairs of another id. -/
  frame : ∀ op id, op.paramID ≠ id → (BlockOp.apply b op).getAllParams id = b.getAllParams id

/-- A block refines its pairs. -/
theorem NParamBlock.refines_pairs (b : NParamBlock) : b.Refines b.pairs where
  pairs := rfl
  sorted := b.sorted_pairs
  getParam := b.map_getParam
  getAllParams id params := by
    rw [b.appendAllParams_eq, List.map_append, b.map_getAllParams]
  writeParams zip buff protVer := b.writeParams_eq zip buff protVer
  writeParams_gzip zip buff protVer := b.writeParams_pairs zip buff protVer true
  frame op id hid := by
    have hinj : Function.Injective NParamBlock.toRecord := by
      intro p q h
      rw [← NParamBlock.ofRecord_toRecord p, h, NParamBlock.ofRecord_toRecord]
    apply hinj.list_map
    rw [map_getAllParams, map_getAllParams, BlockOp.pairs_apply,
      BlockOp.all_meaning_of_ne b.sorted_pairs hid]

/-- **A block behaves as an ordered multimap**: after any operations on an empty block it is the
list that the same operations make of the empty list. -/
theorem run_refines (ops : List BlockOp) :
    (ops.foldl BlockOp.apply NParamBlock.empty).Refines (ops.foldl BlockOp.meaning []) := by
  have hpairs := BlockOp.pairs_foldl NParamBlock.empty ops
  have hempty : NParamBlock.empty.pairs = [] := rfl
  rw [hempty] at hpairs
  rw [← hpairs]
  exact NParamBlock.refines_pairs _

/-- The second of two params with one id stays behind the first when that is updated. -/
example : ([.addParam ⟨7, [1]⟩, .addParam ⟨7, [2]⟩, .addParam ⟨3, [4]⟩, .updateParam ⟨7, [9]⟩] :
    List BlockOp).foldl BlockOp.meaning [] = [(3, [4]), (7, [9]), (7, [2])] := by
  decide

end CppCore.Ngp
