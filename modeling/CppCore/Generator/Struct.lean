import CppCore.Ngp.NParam

/-!
# Generated structs

From the description of a struct the generator writes a `serialize` function, which appends
the members to a param, and a constructor, which reads them back with the `incGet` functions.
Here the description is data, and `serialize` and `construct` are the code generated for it:
one case for each branch of `write_member_serialization` and of
`handle_struct_constructor_member_assignment`.

A member whose size attribute is `@nbr` is a vector with as many elements as the member `nbr`,
read before it in the same struct, says.

The parameters of the constructor are called `param` and `index` and its loop counter `i`, and in
its body these names hide the members that have them.  So `index = param->incGetUint16(index);`
leaves a member `index` as it was and moves the offset to the value that was read.  With a member
`param`, with vectors called `index`, `i` or `tmp`, and with a string or a struct called `index`
the constructor does not compile, and with a vector called `j` `serialize` does not.

## Main definitions

* `DataType`, `Members` — descriptions; `Members.Val` their values, `Members.Object` what a
  constructor makes of a payload.
* `Members.serialize`, `Members.construct` — the generated code.
* `SimpleType.incGet_eq_ok` — what the advancing getters find.
-/

namespace CppCore.Generator

open Lib Ngp

/-! ## Integers and strings -/

/-- The integer types with an `add` and an `incGet` function. -/
inductive IntType
  | uint8
  | byte
  | uint16
  | uint32
  | int32
  deriving DecidableEq, Repr

namespace IntType

/-- The values of the type. -/
abbrev Val : IntType → Type
  | uint8 => UInt8
  | byte => UInt8
  | uint16 => UInt16
  | uint32 => UInt32
  | int32 => Int32

/-- The number a value stands for. -/
def toInt : (t : IntType) → t.Val → ℤ
  | uint8, x => x.toNat
  | byte, x => x.toNat
  | uint16, x => x.toNat
  | uint32, x => x.toNat
  | int32, x => x.toInt

/-- The conversion of a number to the type. -/
def ofInt : (t : IntType) → ℤ → t.Val
  | uint8, n => UInt8.ofInt n
  | byte, n => UInt8.ofInt n
  | uint16, n => UInt16.ofInt n
  | uint32, n => UInt32.ofInt n
  | int32, n => Int32.ofInt n

/-- The function named by `transform_type_to_adder`. -/
def add : (t : IntType) → NParam → t.Val → NParam
  | uint8 => NParam.addUint8
  | byte => NParam.addByte
  | uint16 => NParam.addUint16
  | uint32 => NParam.addUint32
  | int32 => NParam.addInt32

/-- The function named by `transform_type_to_inc_getter`. -/
def incGet (host : Endian) : (t : IntType) → NParam → ℕ → Exec (t.Val × ℕ)
  | uint8 => NParam.incGetUint8
  | byte => NParam.incGetByte
  | uint16 => NParam.incGetUint16 host
  | uint32 => NParam.incGetUint32
  | int32 => NParam.incGetInt32 host

/-- The bytes of a value, most significant first. -/
def encoding : (t : IntType) → t.Val → List UInt8
  | uint8, x => [x]
  | byte, x => [x]
  | uint16, x => be16 x
  | uint32, x => be32 x
  | int32, x => be32 x.toUInt32

/-- The residue of a natural number below the modulus is the number. -/
private theorem toNat_emod {n m : ℕ} (h : n < m) : ((n : ℤ) % (m : ℤ)).toNat = n := by
  rw [← Int.natCast_mod, Int.toNat_natCast, Nat.mod_eq_of_lt h]

@[simp] theorem ofInt_toInt (t : IntType) (x : t.Val) : t.ofInt (t.toInt x) = x := by
  cases t with
  | uint8 | byte =>
    exact (congrArg UInt8.ofNat (toNat_emod (UInt8.toNat_lt x))).trans UInt8.ofNat_toNat
  | uint16 =>
    exact (congrArg UInt16.ofNat (toNat_emod (UInt16.toNat_lt x))).trans UInt16.ofNat_toNat
  | uint32 =>
    exact (congrArg UInt32.ofNat (toNat_emod (UInt32.toNat_lt x))).trans UInt32.ofNat_toNat
  | int32 => exact Int32.ofInt_toInt x

@[simp] theorem m_buff_add (t : IntType) (p : NParam) (x : t.Val) :
    (t.add p x).m_buff = p.m_buff ++ t.encoding x := by
  cases t <;> simp [add, encoding]

@[simp] theorem m_paramID_add (t : IntType) (p : NParam) (x : t.Val) :
    (t.add p x).m_paramID = p.m_paramID := by
  cases t <;> rfl

theorem encoding_ne_nil (t : IntType) (x : t.Val) : t.encoding x ≠ [] := by
  cases t <;> simp [encoding, be16, be32]

/-- Where the advancing getter reads: `getUint32FromByteArray` takes sixteen bits. -/
def offset : IntType → ℕ → ℕ
  | uint32, index => index % 2 ^ 16
  | uint8, index => index
  | byte, index => index
  | uint16, index => index
  | int32, index => index

/-- On every host the advancing getter finds the values whose encodings stand there. -/
theorem incGet_eq_ok {host : Endian} {t : IntType} {p : NParam} {i : ℕ} {x : t.Val} {j : ℕ} :
    t.incGet host p i = .ok (x, j) ↔
      t.encoding x <+: p.m_buff.drop (t.offset i) ∧ j = add32 i (t.encoding x).length := by
  cases t with
  | uint8 | byte => exact NParam.incGetByte_eq_ok
  | uint16 => exact NParam.incGetUint16_eq_ok
  | uint32 => exact NParam.incGetUint32_eq_ok
  | int32 => exact NParam.incGetInt32_eq_ok

end IntType

/-- The types with an `add` and an `incGet` function, and the enums over them. -/
inductive SimpleType
  | int (t : IntType)
  | enum (t : IntType)
  | string
  deriving DecidableEq, Repr

namespace SimpleType

/-- The values of the type; that of an enum is the number of the enumerator. -/
abbrev Val : SimpleType → Type
  | int t => t.Val
  | enum _ => ℤ
  | string => CString

/-- The adder, called with the member: an enum is converted to the integer type and a string
is passed as `c_str()`. -/
def add : (t : SimpleType) → NParam → t.Val → NParam
  | int t, p, x => t.add p x
  | enum t, p, e => t.add p (t.ofInt e)
  | string, p, s => p.addString s

/-- The advancing getter, its result cast to the type. -/
def incGet (host : Endian) : (t : SimpleType) → NParam → ℕ → Exec (t.Val × ℕ)
  | int t, p, index => t.incGet host p index
  | enum t, p, index => do
    let (x, index) ← t.incGet host p index
    .ok (t.toInt x, index)
  | string, p, index => p.incGetString index

/-- The value fits the wire type. -/
def Fits : (t : SimpleType) → t.Val → Prop
  | int _, _ => True
  | enum t, e => t.toInt (t.ofInt e) = e
  | string, _ => True

/-- The bytes of a value. -/
def encoding : (t : SimpleType) → t.Val → List UInt8
  | int t, x => t.encoding x
  | enum t, e => t.encoding (t.ofInt e)
  | string, s => s.bytes

/-- The value converted to `uint32`; a string cannot be. -/
def count : (t : SimpleType) → t.Val → Option UInt32
  | int t, x => some (UInt32.ofInt (t.toInt x))
  | enum _, e => some (UInt32.ofInt e)
  | string, _ => none

/-- Where the advancing getter reads. -/
def offset : SimpleType → ℕ → ℕ
  | int t, index => t.offset index
  | enum t, index => t.offset index
  | string, index => index

@[simp] theorem m_buff_add (t : SimpleType) (p : NParam) (x : t.Val) :
    (t.add p x).m_buff = p.m_buff ++ t.encoding x := by
  cases t <;> simp [add, encoding]

@[simp] theorem m_paramID_add (t : SimpleType) (p : NParam) (x : t.Val) :
    (t.add p x).m_paramID = p.m_paramID := by
  cases t with
  | int t | enum t => exact t.m_paramID_add p _
  | string => rfl

theorem encoding_ne_nil (t : SimpleType) (x : t.Val) : t.encoding x ≠ [] := by
  cases t with
  | int t | enum t => exact t.encoding_ne_nil _
  | string => simp [encoding, CString.bytes]

/-- What the advancing getter of a simple type finds. -/
theorem incGet_eq_ok {host : Endian} {t : SimpleType} {p : NParam} {i : ℕ} {v : t.Val} {j : ℕ} :
    t.incGet host p i = .ok (v, j) ↔
      t.Fits v ∧ t.encoding v <+: p.m_buff.drop (t.offset i) ∧
        j = add32 i (t.encoding v).length := by
  cases t with
  | int t => exact (IntType.incGet_eq_ok (t := t)).trans (iff_of_eq (true_and _)).symm
  | enum t =>
    simp only [incGet, Exec.bind_eq_ok, Prod.exists, IntType.incGet_eq_ok, Except.ok.injEq,
      Prod.mk.injEq]
    constructor
    · rintro ⟨x, _, ⟨hx, rfl⟩, rfl, rfl⟩
      have hback : t.ofInt (t.toInt x) = x := t.ofInt_toInt x
      exact ⟨congrArg t.toInt hback, by rwa [encoding, hback], by rw [encoding, hback]⟩
    · rintro ⟨hv, hpre, rfl⟩
      exact ⟨t.ofInt v, _, ⟨hpre, rfl⟩, hv, rfl⟩
  | string =>
    refine NParam.incGetString_eq_ok.trans ?_
    rw [encoding, CString.length_bytes]
    exact (iff_of_eq (true_and _)).symm

theorem offset_of_le {t : SimpleType} {i : ℕ} (hi : i ≤ 65535) : t.offset i = i := by
  cases t with
  | int t | enum t =>
    cases t with
    | uint32 => exact Nat.mod_eq_of_lt (by omega)
    | uint8 | byte | uint16 | int32 => rfl
  | string => rfl

end SimpleType

/-! ## Descriptions -/

/-- A size attribute: a constant, or `@` and the name of a member. -/
inductive Size
  | const (n : UInt32)
  | ref (member : String)
  deriving DecidableEq, Repr

mutual

/-- The type of a member, or of the elements of one that is a vector. -/
inductive DataType
  | simple (t : SimpleType)
  | struct (members : Members)

/-- The members of a struct: their names, the sizes of those that are vectors, their types. -/
inductive Members
  | nil
  | cons (name : String) (size : Option Size) (data_type : DataType) (rest : Members)

end

mutual

/-- The values of a type. -/
def DataType.Val : DataType → Type
  | .simple t => t.Val
  | .struct ms => ms.Val

/-- The values of the members of a struct. -/
def Members.Val : Members → Type
  | .nil => Unit
  | .cons _ none d rest => d.Val × rest.Val
  | .cons _ (some _) d rest => List d.Val × rest.Val

end

mutual

/-- What is made of a payload for a type. -/
def DataType.Object : DataType → Type
  | .simple t => t.Val
  | .struct ms => ms.Object

/-- The members of a struct that was constructed.  One that is not a vector may have been left as it
was before: an integer then is indeterminate, and an enum zero. -/
def Members.Object : Members → Type
  | .nil => Unit
  | .cons _ none d rest => Option d.Object × rest.Object
  | .cons _ (some _) d rest => List d.Object × rest.Object

end

mutual

/-- The object with this value. -/
def DataType.object : (d : DataType) → d.Val → d.Object
  | .simple _, v => v
  | .struct ms, v => ms.object v

/-- The object all of whose members have been assigned these values. -/
def Members.object : (ms : Members) → ms.Val → ms.Object
  | .nil, v => v
  | .cons _ none d rest, (v, vs) => (some (d.object v), rest.object vs)
  | .cons _ (some _) d rest, (v, vs) => (v.map d.object, rest.object vs)

end

/-- The machine the generated code runs on; its `size_t` has thirty-two bits. -/
structure Target where
  /-- The byte order. -/
  host : Endian
  /-- `std::vector< T >::max_size()`. -/
  max_size : DataType → ℕ

/-- The members read so far that can be a size, with their values. -/
abbrev Counts := List (String × UInt32)

/-- The counts after reading a member. -/
def declare (name : String) (n : Option UInt32) (counts : Counts) : Counts :=
  (n.map (name, ·)).toList ++ counts

/-- The value converted to `uint32`; a struct cannot be. -/
def DataType.count : (d : DataType) → d.Object → Option UInt32
  | .simple t, v => t.count v
  | .struct _, _ => none

/-- The number a size attribute says; a member that was not read before says none. -/
def Size.resolve : Size → Counts → Exec ℕ
  | .const n, _ => .ok n.toNat
  | .ref member, counts =>
    match counts.lookup member with
    | some n => .ok n.toNat
    | none => .error .outOfBounds

/-! ## The generated code -/

/-- The size as an expression at the top of the block that loads a vector, where `index` is the
parameter. -/
def Size.reserved (size : Size) (counts : Counts) (index : ℕ) : Exec ℕ :=
  if size = .ref "index" then .ok (index % 2 ^ 32) else size.resolve counts

/-- The size as an expression in the head of the loop, where `i` is the counter as well. -/
def Size.limit (size : Size) (n i index : ℕ) : ℕ :=
  if size = .ref "index" then
    index % 2 ^ 32
  else if size = .ref "i" then
    i
  else
    n

/-- `std::vector< T >::reserve( n )`. -/
def reserve (max_size n : ℕ) : Exec Unit :=
  if n ≤ max_size then .ok () else .error .lengthError

/-- The block that loads a vector: room for its elements, then one after the other.  There are no
more values of `unsigned int i` than the fuel. -/
def loadVector {α : Type} (max_size : ℕ) (size : Size) (counts : Counts)
    (construct : Option NParam → ℕ → Exec (α × ℕ)) (param : Option NParam) (index : ℕ) :
    Exec (List α × ℕ) := do
  let n ← size.reserved counts index
  reserve max_size n
  readFor (size.limit n) construct param (2 ^ 32) 0 index

mutual

/-- What `write_member_serialization` writes for a value in a struct. -/
def DataType.serialize : (d : DataType) → d.Val → NParam → NParam
  | .simple t, v, param => t.add param v
  | .struct ms, v, param => ms.serialize v param

/-- The `serialize` function of a struct. -/
def Members.serialize : (ms : Members) → ms.Val → NParam → NParam
  | .nil, _, param => param
  | .cons _ none d rest, (v, vs), param => rest.serialize vs (d.serialize v param)
  | .cons _ (some _) d rest, (v, vs), param =>
    rest.serialize vs (v.foldl (fun param x => d.serialize x param) param)

end

/-- `index = v;` on the parameter. -/
def DataType.assignIndex (d : DataType) (v : d.Object) (index : ℕ) : ℕ :=
  ((d.count v).map UInt32.toNat).getD index

mutual

/-- What `handle_struct_constructor_member_assignment` reads a value with. -/
def DataType.construct (target : Target) :
    (d : DataType) → Option NParam → ℕ → Exec (d.Object × ℕ)
  | .simple t, param, index => do
    let p ← deref param
    t.incGet target.host p index
  | .struct ms, param, index => ms.construct target [] param index

/-- The constructor `T(const NParam* param, uint32& index)` of a struct. -/
def Members.construct (target : Target) :
    (ms : Members) → Counts → Option NParam → ℕ → Exec (ms.Object × ℕ)
  | .nil, _, _, index => .ok ((), index)
  | .cons name none d rest, counts, param, index => do
    let (v, index) ← d.construct target param index
    if name = "index" then
      let (vs, index) ← rest.construct target counts param (d.assignIndex v index)
      .ok ((none, vs), index)
    else
      let (vs, index) ← rest.construct target (declare name (d.count v) counts) param index
      .ok ((some v, vs), index)
  | .cons _ (some size) d rest, counts, param, index => do
    let (v, index) ←
      loadVector (target.max_size d) size counts (d.construct target) param index
    let (vs, index) ← rest.construct target counts param index
    .ok ((v, vs), index)

end

end CppCore.Generator
