import CppCore.Generator.Packet
import CppCore.Generator.StructReading

/-!
# Reading back a generated packet

The buffer constructor, run on the block that `serialize` fills.  For packets whose params are
neither `T[]` nor strided it is decided here when every member comes back.  Three things can go
wrong: a struct is read at the offset at which the struct before it ended, although it stands at
the start of a payload of its own; a member of a struct is hidden from its constructor; and
`getInt32` swaps the bytes of a value that is already in the order of the host.

## Main definitions

* `Member.Valid` — the values the wire format has room for.
* `Member.Hollow`, `Member.Visible`, `Member.Symmetric` — what the three conditions are about.
* `construct_serialize_iff` — every member is recovered exactly under these conditions.
-/

namespace CppCore.Generator

open Lib Ngp

/-! ## Payloads -/

namespace ParamType

/-- The value fits its wire type. -/
def Valid (target : Target) : (t : ParamType) → t.Val → Prop
  | simple t, v => t.Fits v
  | bool, _ => True
  | struct ms, v => ms.Valid target [] v
  | array d, v => ∀ x ∈ v, d.Valid target x

/-- The payload of a param; true takes none. -/
def encoding : (t : ParamType) → t.Val → List UInt8
  | simple t, v => t.encoding v
  | bool, v => match v with
    | true => []
    | false => [0]
  | struct ms, v => ms.encoding v
  | array d, v => v.flatMap d.encoding

theorem m_buff_serialize (t : ParamType) (v : t.Val) (p : NParam) :
    (t.serialize v p).m_buff = p.m_buff ++ t.encoding v := by
  cases t with
  | simple t => exact t.m_buff_add p v
  | bool =>
    cases v with
    | true => exact (List.append_nil p.m_buff).symm
    | false => rfl
  | struct ms => exact ms.m_buff_serialize v p
  | array d =>
    change (List.foldl (fun param x => d.serialize x param) p v).m_buff = _
    induction v generalizing p with
    | nil => exact (List.append_nil p.m_buff).symm
    | cons x v ih =>
      rw [List.foldl_cons, ih, d.m_buff_serialize, List.append_assoc]
      rfl

theorem m_paramID_serialize (t : ParamType) (v : t.Val) (p : NParam) :
    (t.serialize v p).m_paramID = p.m_paramID := by
  cases t with
  | simple t => exact t.m_paramID_add p v
  | bool => exact (NParam.m_paramID_add p).2.2.2.2.2.2 v
  | struct ms => exact ms.m_paramID_serialize v p
  | array d =>
    change (List.foldl (fun param x => d.serialize x param) p v).m_paramID = _
    induction v generalizing p with
    | nil => rfl
    | cons x v ih => rw [List.foldl_cons, ih, d.m_paramID_serialize]

/-- The param that is added for a value. -/
theorem serialize_ofID (t : ParamType) (v : t.Val) (id : UInt16) :
    t.serialize v (NParam.ofID id) = ⟨id, t.encoding v⟩ := by
  have hbuff := t.m_buff_serialize v (NParam.ofID id)
  have hid := t.m_paramID_serialize v (NParam.ofID id)
  calc t.serialize v (NParam.ofID id)
      = ⟨(t.serialize v (NParam.ofID id)).m_paramID, (t.serialize v (NParam.ofID id)).m_buff⟩ := rfl
    _ = ⟨id, t.encoding v⟩ := by
      rw [hbuff, hid]
      rfl

end ParamType

/-! ## The block that is filled -/

namespace Member

/-- The params that are added for a member. -/
def params : Member → List NParam
  | single id type v => [⟨id, type.encoding v⟩]
  | strided id d s v => v.zipIdx.map fun (x, i) =>
    ⟨UInt16.ofNat (id.toNat + i * s.array_stride), (ParamType.array d).encoding x⟩

/-- Serializing a member adds its params. -/
theorem serialize_eq (m : Member) (block : NParamBlock) :
    m.serialize block = { block with m_params := block.m_params.insertAll m.params } := by
  cases m with
  | single id type v =>
    rw [serialize, type.serialize_ofID]
    rfl
  | strided id d s v =>
    simp only [serialize, ParamType.serialize_ofID, params]
    induction v.zipIdx generalizing block with
    | nil => rfl
    | cons x l ih =>
      rw [List.foldl_cons, ih]
      rfl

end Member

/-- **Serializing a packet adds the params of its members**, in their order. -/
theorem serialize_eq (ms : List Member) (block : NParamBlock) :
    serialize ms block =
      { block with m_params := block.m_params.insertAll (ms.flatMap Member.params) } := by
  induction ms generalizing block with
  | nil => rfl
  | cons m ms ih =>
    rw [serialize, List.foldl_cons, ← serialize, ih, m.serialize_eq, List.flatMap_cons,
      OrderedMultiset.insertAll_append]

/-! ## Plain members -/

/-- A member whose param is neither `T[]` nor strided. -/
inductive Member.Plain : Member → Prop
  | simple (id : UInt16) (t : SimpleType) (v : t.Val) : Plain (.single id (.simple t) v)
  | bool (id : UInt16) (v : Bool) : Plain (.single id .bool v)
  | struct (id : UInt16) (ms : Members) (v : ms.Val) : Plain (.single id (.struct ms) v)

namespace Member

/-- The id of the param, or of the first one if it is strided. -/
def id : Member → UInt16
  | single id _ _ => id
  | strided id _ _ _ => id

/-- The value fits its wire type, and no payload is longer than its length field can say. -/
def Valid (target : Target) : Member → Prop
  | single _ type v => type.Valid target v ∧ (type.encoding v).length ≤ 65535
  | strided _ d _ v => ∀ x ∈ v,
    (ParamType.array d).Valid target x ∧ ((ParamType.array d).encoding x).length ≤ 65535

/-- The member as it was: its value, assigned. -/
def assigned : Member → Assignment
  | single id type v => .single id type (some (type.object v))
  | strided id d s v =>
    .strided id (.array d) s (v.map fun x => some ((ParamType.array d).object x))

/-- What the struct constructor has to read for a member that is a struct. -/
def structBytes : Member → List UInt8
  | single _ (.struct ms) v => ms.encoding v
  | _ => []

/-- The member is not a struct, or one without an integer, an enum or a string in it. -/
def Hollow : Member → Prop
  | single _ (.struct ms) v => ms.Hollow v
  | _ => True

/-- The member is not a struct, or one none of whose members is hidden from its constructor. -/
def Visible : Member → Prop
  | single _ (.struct ms) v => ms.Visible v
  | _ => True

/-- A signed value reads the same in both byte orders, or the host has that of the network. -/
def Symmetric (host : Endian) : Member → Prop
  | single _ (.simple t) v => t.Symmetric host v
  | _ => True

/-- **The assignment of one plain member**, read from the param that was added for it. -/
theorem construct_iff {target : Target} {m : Member} (hplain : m.Plain) (hvalid : m.Valid target)
    {block : NParamBlock} (hget : m.params = (block.getParam m.id).toList) (fuel : ℕ) {index j : ℕ}
    (hindex : index ≤ 65535) :
    m.param.construct target fuel block index = .ok (m.assigned, j) ↔
      m.Symmetric target.host ∧ m.Visible ∧ (m.structBytes = [] ∨ index = 0) ∧
        j = index + m.structBytes.length := by
  have hfound : ∀ p, m.params = [p] → block.getParam m.id = some p := by
    intro p hp
    rw [hp] at hget
    exact Option.toList_eq_singleton_iff.mp hget.symm
  cases hplain with
  | simple id t v =>
    have hfound : block.getParam id = some ⟨id, t.encoding v⟩ := hfound _ rfl
    have hread : t.get target.host ⟨id, t.encoding v⟩ 0 = .ok (t.fetched target.host v) :=
      SimpleType.get_eq_ok.mpr ⟨v, hvalid.1, rfl, List.prefix_rfl⟩
    simp only [param, assigned, Param.construct, ParamType.construct, ParamType.object, hfound,
      hread, Exec.ok_bind, Symmetric, Visible, structBytes,
      ← SimpleType.fetched_eq_self hvalid.1, Except.ok.injEq, Prod.mk.injEq,
      Assignment.single.injEq, heq_eq_eq, Option.some.injEq, true_and, true_or, List.length_nil,
      Nat.add_zero]
    exact and_congr_right fun _ => eq_comm
  | bool id v =>
    have hfound : block.getParam id = some ⟨id, ParamType.bool.encoding v⟩ := hfound _ rfl
    have hread : NParam.getBool ⟨id, ParamType.bool.encoding v⟩ = .ok v := by
      cases v <;> rfl
    simp only [param, assigned, Param.construct, ParamType.construct, ParamType.object, hfound,
      hread, Exec.ok_bind, Symmetric, Visible, structBytes, Except.ok.injEq, Prod.mk.injEq,
      true_and, true_or, List.length_nil, Nat.add_zero]
    exact eq_comm
  | struct id ms v =>
    have hfound : block.getParam id = some ⟨id, ms.encoding v⟩ := hfound _ rfl
    have hlen : (ms.encoding v).length ≤ 65535 := hvalid.2
    have hread := (@Members.construct_eq_ok target (some ⟨id, ms.encoding v⟩) ms [] index
      (ms.object v) j).trans (ms.exact_found hlen [] v hvalid.1 rfl index j hindex)
    rw [prefix_drop_self] at hread
    simp only [param, assigned, Param.construct, ParamType.construct, ParamType.object, hfound,
      Symmetric, Visible, structBytes, true_and, Exec.bind_eq_ok, Prod.exists, Except.ok.injEq,
      Prod.mk.injEq]
    rw [← hread]
    constructor
    · rintro ⟨_, _, ⟨v', j', hrun, rfl, rfl⟩, heq, rfl⟩
      simp only [Assignment.single.injEq, heq_eq_eq, Option.some.injEq, true_and] at heq
      rwa [← heq]
    · intro hrun
      exact ⟨_, _, ⟨_, j, hrun, rfl, rfl⟩, rfl, rfl⟩

/-- A struct that fits into a payload is no longer than one. -/
theorem length_structBytes_le {target : Target} {m : Member} (hvalid : m.Valid target) :
    m.structBytes.length ≤ 65535 := by
  simp only [structBytes]
  split
  · exact hvalid.2
  · exact Nat.zero_le _

theorem structBytes_eq_nil {m : Member} : m.structBytes = [] ↔ m.Hollow := by
  simp only [structBytes, Hollow]
  split
  · exact Members.encoding_eq_nil _ _
  · simp

/-- A plain param is added once, under its id. -/
theorem params_of_plain {m : Member} (hplain : m.Plain) : ∃ bytes, m.params = [⟨m.id, bytes⟩] := by
  cases hplain <;> exact ⟨_, rfl⟩

end Member

/-- **Where a plain member is found**: under its id, when the ids are distinct. -/
theorem getParam_serialize {ms : List Member} (hplain : ∀ m ∈ ms, m.Plain)
    (hids : (ms.map Member.id).Nodup) {m : Member} (hm : m ∈ ms) :
    m.params = ((serialize ms NParamBlock.empty).getParam m.id).toList := by
  have hfind : ∀ k, (serialize ms NParamBlock.empty).getParam k =
      (ms.flatMap Member.params).find? (fun p => p.key = k.toNat) := by
    intro k
    rw [serialize_eq, NParamBlock.getParam, OrderedMultiset.find_insertAll]
    rfl
  rw [hfind]
  clear hfind
  induction ms with
  | nil => simp at hm
  | cons m₀ ms ih =>
    obtain ⟨bytes, hbytes⟩ := Member.params_of_plain (hplain m₀ (by simp))
    rw [List.map_cons, List.nodup_cons] at hids
    rw [List.flatMap_cons, hbytes, List.singleton_append]
    rcases List.mem_cons.mp hm with rfl | hm'
    · rw [List.find?_cons_of_pos (by simp [NParam.key]), hbytes]
      rfl
    · have hne : m₀.id ≠ m.id := fun h => hids.1 (List.mem_map.mpr ⟨m, hm', h.symm⟩)
      rw [List.find?_cons_of_neg (by simpa [NParam.key, UInt16.toNat_inj] using hne)]
      exact ih (fun m hm => hplain m (List.mem_cons_of_mem _ hm)) hids.2 hm'

/-- All members are recovered when the first one is and the others are from where it ended. -/
private theorem constructFrom_cons_eq_ok {target : Target} {block : NParamBlock} {fuel : ℕ}
    {m : Member} {ms : List Member} {index : ℕ} :
    constructFrom target fuel block ((m :: ms).map Member.param) index =
        .ok ((m :: ms).map Member.assigned) ↔
      ∃ j, m.param.construct target fuel block index = .ok (m.assigned, j) ∧
        constructFrom target fuel block (ms.map Member.param) j = .ok (ms.map Member.assigned) := by
  simp only [List.map_cons, constructFrom, Exec.bind_eq_ok, Prod.exists, Except.ok.injEq,
    List.cons.injEq]
  constructor
  · rintro ⟨a, j, hm, as, hms, rfl, rfl⟩
    exact ⟨j, hm, hms⟩
  · rintro ⟨j, hm, hms⟩
    exact ⟨_, j, hm, _, hms, rfl, rfl⟩

/-- **The assignments of plain members from an offset on.**  They recover the members exactly when
the signed values are symmetric, no member is hidden, no two structs take room, and none does
unless the offset is the start. -/
theorem constructFrom_iff {target : Target} {block : NParamBlock} (fuel : ℕ) {ms : List Member}
    (hplain : ∀ m ∈ ms, m.Plain) (hvalid : ∀ m ∈ ms, m.Valid target)
    (hget : ∀ m ∈ ms, m.params = (block.getParam m.id).toList) {index : ℕ}
    (hindex : index ≤ 65535) :
    constructFrom target fuel block (ms.map Member.param) index = .ok (ms.map Member.assigned) ↔
      (∀ m ∈ ms, m.Symmetric target.host ∧ m.Visible) ∧
        ms.Pairwise (fun a b => a.structBytes = [] ∨ b.structBytes = []) ∧
        (index = 0 ∨ ∀ m ∈ ms, m.structBytes = []) := by
  induction ms generalizing index with
  | nil => simp [constructFrom]
  | cons m ms ih =>
    obtain ⟨hplain₀, hplain⟩ := List.forall_mem_cons.mp hplain
    obtain ⟨hvalid₀, hvalid⟩ := List.forall_mem_cons.mp hvalid
    obtain ⟨hget₀, hget⟩ := List.forall_mem_cons.mp hget
    have hsmall := Member.length_structBytes_le hvalid₀
    simp only [constructFrom_cons_eq_ok, Member.construct_iff hplain₀ hvalid₀ hget₀ fuel hindex,
      and_assoc]
    by_cases hnil : m.structBytes = []
    · simp [hnil, ih hplain hvalid hget hindex, and_assoc]
    · have hpos := List.length_pos_of_ne_nil hnil
      constructor
      · rintro ⟨-, hsym, hvis, hor, rfl, hrest⟩
        have hzero : index = 0 := hor.resolve_left hnil
        obtain ⟨hall, hpair, hempty⟩ := (ih hplain hvalid hget (by omega)).mp hrest
        have hempty := hempty.resolve_left (by omega)
        exact ⟨List.forall_mem_cons.mpr ⟨⟨hsym, hvis⟩, hall⟩,
          List.pairwise_cons.mpr ⟨fun b hb => Or.inr (hempty b hb), hpair⟩, Or.inl hzero⟩
      · rintro ⟨hall, hpair, hzero⟩
        obtain ⟨⟨hsym, hvis⟩, hall⟩ := List.forall_mem_cons.mp hall
        obtain ⟨hfirst, hpair⟩ := List.pairwise_cons.mp hpair
        have hzero : index = 0 := hzero.resolve_right fun h => hnil (h m (by simp))
        have hempty : ∀ b ∈ ms, b.structBytes = [] :=
          fun b hb => (hfirst b hb).resolve_left hnil
        refine ⟨_, hsym, hvis, Or.inr hzero, rfl, ?_⟩
        exact (ih hplain hvalid hget (by omega)).mpr ⟨hall, hpair, Or.inr hempty⟩

/-- **When a packet of plain params is recovered** from the block it was serialized into: exactly
when its signed values are the same in both byte orders, or the host has that of the network, no
member of its structs is hidden from a constructor, and no two of its structs have data in them. -/
theorem construct_serialize_iff (target : Target) (fuel : ℕ) {ms : List Member}
    (hplain : ∀ m ∈ ms, m.Plain) (hids : (ms.map Member.id).Nodup)
    (hvalid : ∀ m ∈ ms, m.Valid target) :
    construct target fuel (ms.map Member.param) (serialize ms NParamBlock.empty) =
        .ok (ms.map Member.assigned) ↔
      (∀ m ∈ ms, m.Symmetric target.host ∧ m.Visible) ∧
        ms.Pairwise (fun a b => a.Hollow ∨ b.Hollow) := by
  rw [construct, constructFrom_iff fuel hplain hvalid
    (fun m hm => getParam_serialize hplain hids hm) (Nat.zero_le _)]
  simp [Member.structBytes_eq_nil]

/-- A string, a struct, a true `bool` and a symmetric signed value are recovered on a little-endian
host. -/
theorem construct_serialize_one_struct :
    let ms : List Member :=
      [.single 7 (.simple .string) (⟨[0x41], by decide⟩ : CString),
        .single 1300 (.struct pixelDimensions) ((240 : UInt16), (320 : UInt16), ()),
        .single 3 .bool true, .single 2 (.simple (.int .int32)) (0x01020201 : Int32)]
    construct ⟨.little, fun _ => 1000⟩ 0 (ms.map Member.param) (serialize ms NParamBlock.empty) =
      .ok (ms.map Member.assigned) := by
  intro ms
  have hplain : ∀ m ∈ ms, m.Plain := by
    simp only [ms, List.forall_mem_cons, List.not_mem_nil, false_implies, implies_true, and_true]
    exact ⟨.simple _ _ _, .struct _ _ _, .bool _ _, .simple _ _ _⟩
  have hvalid : ∀ m ∈ ms, m.Valid ⟨.little, fun _ => 1000⟩ := by
    simp only [ms, List.forall_mem_cons, List.not_mem_nil, false_implies, implies_true, and_true]
    exact ⟨⟨trivial, by decide⟩, ⟨⟨trivial, trivial, trivial⟩, by decide⟩, ⟨trivial, by decide⟩,
      ⟨trivial, by decide⟩⟩
  refine (construct_serialize_iff ⟨.little, fun _ => 1000⟩ 0 hplain (by decide) hvalid).mpr ⟨?_, ?_⟩
  · simp only [ms, List.forall_mem_cons, List.not_mem_nil, false_implies, implies_true, and_true]
    exact ⟨⟨trivial, trivial⟩, ⟨trivial, by decide, trivial, by decide, trivial, trivial⟩,
      ⟨trivial, trivial⟩, ⟨Or.inr (by decide), trivial⟩⟩
  · simp [ms, Member.Hollow]

/-- The first member of `NAV_SEARCH_REPLY`, with the indices from `0` on and a count of five, is not
recovered: the constructor of `IndexAndCount` reads the count from offset `0`. -/
theorem construct_serialize_nav_search_reply :
    let ms : List Member := [.single 1300 (.struct indexAndCount) ((0 : UInt16), (5 : UInt16), ())]
    (∀ m ∈ ms, m.Plain ∧ m.Valid ⟨.little, fun _ => 1000⟩) ∧ (ms.map Member.id).Nodup ∧
      ∀ fuel, construct ⟨.little, fun _ => 1000⟩ fuel (ms.map Member.param)
        (serialize ms NParamBlock.empty) =
          .ok [.single 1300 (.struct indexAndCount) (some (none, some (0 : UInt16), ()))] := by
  intro ms
  refine ⟨?_, by decide, fun fuel => rfl⟩
  simp only [ms, List.forall_mem_cons, List.not_mem_nil, false_implies, implies_true, and_true]
  exact ⟨.struct _ _ _, ⟨trivial, trivial, trivial⟩, by decide⟩

end CppCore.Generator
