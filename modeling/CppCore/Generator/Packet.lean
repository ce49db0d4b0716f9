import CppCore.Generator.Struct
import CppCore.Ngp.NParamBlock

/-!
# Generated packets

A packet is described by its params.  From the description the generator writes a `serialize`
function, which adds a param to a block for each member, and a constructor, whose assignments
read the members from a block that was received.

`index`, the offset for struct constructors, is declared once at the top of the constructor and
shared by all of the assignments; the getters of simple params always read at offset `0`.

Only of a strided `T[]` is there a `serialize`: for the other strided params the generator leaves
out the `[i]` behind the member, and the code does not compile.

## Main definitions

* `ParamType`, `Param` — descriptions; `Member` a param with a value.
* `serialize` — the generated `serialize( NParamBlock& )`.
* `Param.construct`, `construct` — the assignments of the generated buffer constructor.
* `SimpleType.get_eq_ok` — what the getters of simple params find.
-/

namespace CppCore.Generator

open Lib Ngp

/-! ## Getters -/

/-- The function named by `transform_type_to_getter`; its index is a `uint16`. -/
def IntType.get (host : Endian) (t : IntType) (p : NParam) (index : ℕ) : Exec t.Val :=
  match t with
  | uint8 => p.getUint8 (index % 2 ^ 16)
  | byte => p.getByte (index % 2 ^ 16)
  | uint16 => p.getUint16 (index % 2 ^ 16)
  | uint32 => p.getUint32 (index % 2 ^ 16)
  | int32 => p.getInt32 host (index % 2 ^ 16)

/-- The getter, its result cast to the type. -/
def SimpleType.get (host : Endian) (t : SimpleType) (p : NParam) (index : ℕ) : Exec t.Val :=
  match t with
  | int t => t.get host p index
  | enum t => do
    let x ← t.get host p index
    .ok (t.toInt x)
  | string => p.getString (index % 2 ^ 16)

/-- The value the getter finds where `x` was written: `getInt32` assembles the word most
significant byte first and then converts it from network order as well. -/
def IntType.fetched (host : Endian) : (t : IntType) → t.Val → t.Val
  | int32, x => (ntohl host x.toUInt32).toInt32
  | uint8, x => x
  | byte, x => x
  | uint16, x => x
  | uint32, x => x

/-- A signed value reads the same in both byte orders, or the host has that of the network. -/
def IntType.Symmetric (host : Endian) : (t : IntType) → t.Val → Prop
  | int32, x => host = .big ∨ (be32 x.toUInt32).reverse = be32 x.toUInt32
  | uint8, _ => True
  | byte, _ => True
  | uint16, _ => True
  | uint32, _ => True

theorem IntType.fetched_eq_self {host : Endian} {t : IntType} {x : t.Val} :
    t.fetched host x = x ↔ t.Symmetric host x := by
  cases t with
  | int32 =>
    rw [IntType.Symmetric, ← ntohl_eq_self]
    exact ⟨fun h => congrArg Int32.toUInt32 h, fun h => congrArg UInt32.toInt32 h⟩
  | uint8 | byte | uint16 | uint32 => simp [IntType.fetched, IntType.Symmetric]

/-- What the getter of an integer type finds at the start of a payload. -/
theorem IntType.get_eq_ok {host : Endian} {t : IntType} {p : NParam} {v : t.Val} :
    t.get host p 0 = .ok v ↔ ∃ x, v = t.fetched host x ∧ t.encoding x <+: p.m_buff := by
  have hself : ∀ {α : Type} (enc : α → List UInt8) (v : α),
      enc v <+: p.m_buff ↔ ∃ x, v = x ∧ enc x <+: p.m_buff := by simp
  cases t with
  | uint8 | byte => exact NParam.getByte_eq_ok.trans (hself (fun b => [b]) v)
  | uint16 => exact NParam.getUint16_eq_ok.trans (hself be16 v)
  | uint32 => exact (NParam.getUint32_eq_ok (by decide)).trans (hself be32 v)
  | int32 =>
    refine NParam.getInt32_eq_ok.trans ⟨?_, ?_⟩
    · rintro ⟨w, hv, hw⟩
      exact ⟨w.toInt32, hv, hw⟩
    · rintro ⟨x, hv, hx⟩
      exact ⟨x.toUInt32, hv, hx⟩

namespace SimpleType

/-- The value the getter finds where `x` was written. -/
def fetched (host : Endian) : (t : SimpleType) → t.Val → t.Val
  | int t, x => t.fetched host x
  | enum t, e => t.toInt (t.fetched host (t.ofInt e))
  | string, s => s

/-- The number behind a value reads the same in both byte orders if it is signed. -/
def Symmetric (host : Endian) : (t : SimpleType) → t.Val → Prop
  | int t, x => t.Symmetric host x
  | enum t, e => t.Symmetric host (t.ofInt e)
  | string, _ => True

theorem fetched_eq_self {host : Endian} {t : SimpleType} {x : t.Val} (hx : t.Fits x) :
    t.fetched host x = x ↔ t.Symmetric host x := by
  cases t with
  | int t => exact IntType.fetched_eq_self
  | enum t =>
    refine Iff.trans ⟨fun h => ?_, fun h => ?_⟩ (IntType.fetched_eq_self (x := t.ofInt x))
    · rw [← t.ofInt_toInt (t.fetched host (t.ofInt x))]
      exact congrArg t.ofInt h
    · exact (congrArg t.toInt h).trans hx
  | string => simp [fetched, Symmetric]

/-- **What a getter finds at the start of a payload.** -/
theorem get_eq_ok {host : Endian} {t : SimpleType} {p : NParam} {v : t.Val} :
    t.get host p 0 = .ok v ↔
      ∃ x, t.Fits x ∧ v = t.fetched host x ∧ t.encoding x <+: p.m_buff := by
  cases t with
  | int t =>
    refine (IntType.get_eq_ok (t := t)).trans ⟨?_, ?_⟩
    · rintro ⟨x, hv, hx⟩
      exact ⟨x, trivial, hv, hx⟩
    · rintro ⟨x, -, hv, hx⟩
      exact ⟨x, hv, hx⟩
  | enum t =>
    simp only [SimpleType.get, Exec.bind_eq_ok, IntType.get_eq_ok, Except.ok.injEq]
    constructor
    · rintro ⟨_, ⟨x, rfl, hx⟩, rfl⟩
      refine ⟨t.toInt x, congrArg t.toInt (t.ofInt_toInt x), ?_, ?_⟩
      · rw [fetched, t.ofInt_toInt]
      · rwa [encoding, t.ofInt_toInt]
    · rintro ⟨e, -, rfl, he⟩
      exact ⟨_, ⟨_, rfl, he⟩, rfl⟩
  | string =>
    refine NParam.getString_eq_ok.trans ⟨fun h => ⟨v, trivial, rfl, h⟩, ?_⟩
    rintro ⟨x, -, rfl, hx⟩
    exact hx

end SimpleType

/-! ## Descriptions -/

/-- The type of a param: a simple type, `bool`, a struct, or `T[]`. -/
inductive ParamType
  | simple (t : SimpleType)
  | bool
  | struct (members : Members)
  | array (d : DataType)

/-- The values of a type. -/
abbrev ParamType.Val : ParamType → Type
  | simple t => t.Val
  | bool => Bool
  | struct ms => ms.Val
  | array d => List d.Val

/-- What is made of a param of a type. -/
abbrev ParamType.Object : ParamType → Type
  | simple t => t.Val
  | bool => Bool
  | struct ms => ms.Object
  | array d => List d.Object

/-- The object with this value. -/
def ParamType.object : (t : ParamType) → t.Val → t.Object
  | simple _, v => v
  | bool, v => v
  | struct ms, v => ms.object v
  | array d, v => v.map d.object

/-- The attributes of a strided param: the ids go up in steps of `stride` and stay below `end`.
The generated loop counts them with an `int`. -/
structure Stride where
  /-- `arrayStride`. -/
  array_stride : ℕ
  /-- `arrayEnd`. -/
  array_end : ℕ
  /-- The loop moves on. -/
  array_stride_pos : 0 < array_stride
  /-- The counter does not overflow. -/
  end_le : array_end + array_stride ≤ 2 ^ 31

/-- The values of the counter in `for(int i = id; i < array_end; i+=array_stride)`. -/
def Stride.values (s : Stride) (id : UInt16) : List ℕ :=
  List.range' id.toNat ((s.array_end - id.toNat + s.array_stride - 1) / s.array_stride)
    s.array_stride

/-- The description of a param; `is_array` distinguishes the two kinds. -/
inductive Param
  /-- One param. -/
  | single (id : UInt16) (type : ParamType)
  /-- A param of the type for each element, with its own id. -/
  | strided (id : UInt16) (type : ParamType) (stride : Stride)

/-- A member of a packet: a described param with its value; if it is strided, one of `T[]`. -/
inductive Member
  | single (id : UInt16) (type : ParamType) (v : type.Val)
  | strided (id : UInt16) (d : DataType) (stride : Stride) (v : List (List d.Val))

/-- The description of a member. -/
def Member.param : Member → Param
  | single id type _ => .single id type
  | strided id d stride _ => .strided id (.array d) stride

/-! ## Serialization -/

/-- What `write_member_serialization` writes for the value of a param. -/
def ParamType.serialize : (t : ParamType) → t.Val → NParam → NParam
  | simple t, v, param => t.add param v
  | bool, v, param => param.addBool v
  | struct ms, v, param => ms.serialize v param
  | array d, v, param => v.foldl (fun param x => d.serialize x param) param

/-- The part of `serialize` for a member: one param, or one for each element with the ids
`id + i * array_stride`. -/
def Member.serialize : Member → NParamBlock → NParamBlock
  | single id type v, block => block.addParam (type.serialize v (NParam.ofID id))
  | strided id d s v, block =>
    v.zipIdx.foldl (fun block (x, i) =>
      block.addParam ((ParamType.array d).serialize x
        (NParam.ofID (UInt16.ofNat (id.toNat + i * s.array_stride))))) block

/-- `serialize( NParamBlock& block )` of a packet. -/
def serialize (ms : List Member) (block : NParamBlock) : NParamBlock :=
  ms.foldl (fun block m => m.serialize block) block

/-! ## The buffer constructor -/

/-- A member after the assignments; a simple value may have been left alone. -/
inductive Assignment
  | single (id : UInt16) (type : ParamType) (v : Option type.Object)
  | strided (id : UInt16) (type : ParamType) (stride : Stride) (v : List (Option type.Object))

/-- One turn of the loop over a `T[]`: a simple type is read with the getter, which does not
advance `arrIndex`. -/
def DataType.constructElement (target : Target) :
    (d : DataType) → NParam → ℕ → Exec (d.Object × ℕ)
  | .simple t, param, arrIndex => do
    let tmp ← t.get target.host param arrIndex
    .ok (tmp, arrIndex)
  | .struct ms, param, arrIndex => ms.construct target [] (some param) arrIndex

/-- The assignment for a type: simple params are checked for `NULL`, and only a `T[]` is read at
`offset`, which in a strided param is the current id. -/
def ParamType.construct (target : Target) (fuel : ℕ) (m_params : NParamBlock) (id offset : UInt16) :
    (t : ParamType) → ℕ → Exec (Option t.Object × ℕ)
  | simple t, index =>
    match m_params.getParam id with
    | none => .ok (none, index)
    | some param => do
      let v ← t.get target.host param 0
      .ok (some v, index)
  | bool, index =>
    match m_params.getParam id with
    | none => .ok (none, index)
    | some param => do
      let v ← param.getBool
      .ok (some v, index)
  | struct ms, index => do
    let (v, index) ← ms.construct target [] (m_params.getParam id) index
    .ok (some v, index)
  | array d, index => do
    let param ← deref (m_params.getParam offset)
    let v ← readWhile (d.constructElement target) param.getLength param fuel 0
    .ok (some v, index)

/-- The loop over the ids of a strided param, up to the first one that is absent. -/
def ParamType.constructStrided (target : Target) (fuel : ℕ) (m_params : NParamBlock) (id : UInt16)
    (t : ParamType) : List ℕ → ℕ → Exec (List (Option t.Object) × ℕ)
  | [], index => .ok ([], index)
  | i :: is, index =>
    match m_params.getParam (UInt16.ofNat i) with
    | none => .ok ([], index)
    | some _ => do
      let (v, index) ← t.construct target fuel m_params id (UInt16.ofNat i) index
      let (vs, index) ← t.constructStrided target fuel m_params id is index
      .ok (v :: vs, index)

/-- `write_npblock_constructor_member_assignment`: the assignment of a member. -/
def Param.construct (target : Target) (fuel : ℕ) (m_params : NParamBlock) :
    Param → ℕ → Exec (Assignment × ℕ)
  | single id type, index => do
    let (v, index) ← type.construct target fuel m_params id id index
    .ok (.single id type v, index)
  | strided id type s, index => do
    let (v, index) ← type.constructStrided target fuel m_params id (s.values id) index
    .ok (.strided id type s v, index)

/-- The assignments of all members, one after the other. -/
def constructFrom (target : Target) (fuel : ℕ) (m_params : NParamBlock) :
    List Param → ℕ → Exec (List Assignment)
  | [], _ => .ok []
  | p :: ps, index => do
    let (a, index) ← p.construct target fuel m_params index
    let as ← constructFrom target fuel m_params ps index
    .ok (a :: as)

/-- The member assignments of the buffer constructor. -/
def construct (target : Target) (fuel : ℕ) (params : List Param) (m_params : NParamBlock) :
    Exec (List Assignment) := constructFrom target fuel m_params params 0

end CppCore.Generator
