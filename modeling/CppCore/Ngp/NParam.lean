import CppCore.Lib.Words
import CppCore.Lib.PrefixCodec

/-!
# Params

`NParam` is an id and a byte vector.  The `add` functions append a value; the `get` functions
read one at an index, the `incGet` functions also advance the index.  An index is `uint16` in
the former and `uint32` in the latter, whose `incGetUint32` passes it on as `uint16`.

Where the source loads a word from memory the host does so unaligned and in its byte order,
which is the parameter `host`.  `&m_buff.front()` is the address of the first byte.

## Main definitions

* `NParam` — a param; `writeTo` its encoding in a block.
* `NParam.getUint16_eq_ok`, `NParam.getUint32_eq_ok` — what the readers find.
* `NParam.incGetByte_eq_ok`, `NParam.incGetUint16_eq_ok`, `NParam.incGetUint32_eq_ok`,
  `NParam.incGetInt32_eq_ok`, `NParam.incGetString_eq_ok` — and the advancing readers.
-/

namespace CppCore.Ngp

open Lib

/-- A param: its id and its payload. -/
structure NParam where
  /-- The id. -/
  m_paramID : UInt16
  /-- The payload. -/
  m_buff : List UInt8
  deriving DecidableEq, Repr

namespace NParam

/-! ## Writing -/

/-- A param with an empty payload. -/
def ofID (paramID : UInt16) : NParam := ⟨paramID, []⟩

/-- The key `operator <` compares. -/
def key (p : NParam) : ℕ := p.m_paramID.toNat

/-- `NParam::addByte`. -/
def addByte (p : NParam) (data : UInt8) : NParam := { p with m_buff := p.m_buff ++ [data] }

/-- `NParam::addUint8`. -/
def addUint8 (p : NParam) (data : UInt8) : NParam := { p with m_buff := p.m_buff ++ [data] }

/-- `NParam::addUint16`. -/
def addUint16 (p : NParam) (data : UInt16) : NParam :=
  { p with m_buff := p.m_buff ++ [(data >>> 8).toUInt8, (data &&& 0xff).toUInt8] }

/-- `NParam::addUint32ToByteVector`. -/
def addUint32ToByteVector (v : List UInt8) (d : UInt32) : List UInt8 :=
  v ++ [((d >>> 24) &&& 0xff).toUInt8, ((d >>> 16) &&& 0xff).toUInt8, ((d >>> 8) &&& 0xff).toUInt8,
    (d &&& 0xff).toUInt8]

/-- `NParam::addUint32`. -/
def addUint32 (p : NParam) (data : UInt32) : NParam :=
  { p with m_buff := addUint32ToByteVector p.m_buff data }

/-- `NParam::addInt32`. -/
def addInt32 (p : NParam) (data : Int32) : NParam := p.addUint32 data.toUInt32

/-- `NParam::addByteArray`; `buff` is the range of `len` bytes. -/
def addByteArray (p : NParam) (buff : List UInt8) : NParam := { p with m_buff := p.m_buff ++ buff }

/-- `NParam::addString` of the client: the characters and the terminator. -/
def addString (p : NParam) (str : CString) : NParam := { p with m_buff := p.m_buff ++ str.bytes }

/-- `NParam::addBool`: an empty payload is true. -/
def addBool (p : NParam) (b : Bool) : NParam := if !b then p.addByte 0 else p

/-- `NParam::writeTo`: id, length and payload behind what is in `buff`. -/
def writeTo (p : NParam) (buff : List UInt8) : List UInt8 :=
  buff ++ [(p.m_paramID >>> 8).toUInt8, (p.m_paramID &&& 0xff).toUInt8,
    UInt8.ofNat (p.m_buff.length / 256), UInt8.ofNat (p.m_buff.length % 256)] ++ p.m_buff

/-! ## Reading -/

/-- `NParam::getLength`: the size as `uint16`. -/
def getLength (p : NParam) : ℕ := p.m_buff.length % 2 ^ 16

/-- `NParam::getBool`. -/
def getBool (p : NParam) : Exec Bool := do
  if p.getLength = 0 then
    .ok true
  else
    let b ← byteAt p.m_buff 0
    .ok (b != 0)

/-- `NParam::getByte`. -/
def getByte (p : NParam) (index : ℕ) : Exec UInt8 := byteAt p.m_buff index

/-- `NParam::incGetByte`. -/
def incGetByte (p : NParam) (index : ℕ) : Exec (UInt8 × ℕ) := do
  let b ← byteAt p.m_buff index
  .ok (b, add32 index 1)

/-- `NParam::getUint8`. -/
def getUint8 (p : NParam) (index : ℕ) : Exec UInt8 := p.getByte index

/-- `NParam::incGetUint8`. -/
def incGetUint8 (p : NParam) (index : ℕ) : Exec (UInt8 × ℕ) := p.incGetByte index

/-- `NParam::getUint16`. -/
def getUint16 (p : NParam) (index : ℕ) : Exec UInt16 := do
  let b₀ ← byteAt p.m_buff index
  let b₁ ← byteAt p.m_buff (index + 1)
  .ok (ofBE16 b₀ b₁)

/-- `NParam::incGetUint16`. -/
def incGetUint16 (host : Endian) (p : NParam) (index : ℕ) : Exec (UInt16 × ℕ) := do
  let b₀ ← byteAt p.m_buff index
  let b₁ ← byteAt p.m_buff (index + 1)
  .ok (ntohs host (load16 host b₀ b₁), add32 index 2)

/-- `NParam::getUint32FromByteArray`; its index is a `uint16`. -/
def getUint32FromByteArray (b : List UInt8) (index : ℕ) : Exec UInt32 := do
  let b₀ ← byteAt b (index % 2 ^ 16)
  let b₁ ← byteAt b (index % 2 ^ 16 + 1)
  let b₂ ← byteAt b (index % 2 ^ 16 + 2)
  let b₃ ← byteAt b (index % 2 ^ 16 + 3)
  .ok (ofBE32 b₀ b₁ b₂ b₃)

/-- `NParam::getUint32`. -/
def getUint32 (p : NParam) (index : ℕ) : Exec UInt32 := getUint32FromByteArray p.m_buff index

/-- `NParam::incGetUint32`. -/
def incGetUint32 (p : NParam) (index : ℕ) : Exec (UInt32 × ℕ) := do
  let r ← getUint32FromByteArray p.m_buff index
  .ok (r, add32 index 4)

/-- `NParam::getInt32`: assembled by shifts, then converted from network order. -/
def getInt32 (host : Endian) (p : NParam) (index : ℕ) : Exec Int32 := do
  let b₀ ← byteAt p.m_buff index
  let b₁ ← byteAt p.m_buff (index + 1)
  let b₂ ← byteAt p.m_buff (index + 2)
  let b₃ ← byteAt p.m_buff (index + 3)
  .ok (ntohl host (ofBE32 b₀ b₁ b₂ b₃)).toInt32

/-- `NParam::incGetInt32`: loaded by the host, then converted from network order. -/
def incGetInt32 (host : Endian) (p : NParam) (index : ℕ) : Exec (Int32 × ℕ) := do
  let b₀ ← byteAt p.m_buff index
  let b₁ ← byteAt p.m_buff (index + 1)
  let b₂ ← byteAt p.m_buff (index + 2)
  let b₃ ← byteAt p.m_buff (index + 3)
  .ok ((ntohl host (load32 host b₀ b₁ b₂ b₃)).toInt32, add32 index 4)

/-- `NParam::getString` and the scan of whoever uses the pointer it returns. -/
def getString (p : NParam) (index : ℕ) : Exec CString := cstring (p.m_buff.drop index)

/-- `NParam::incGetString`. -/
def incGetString (p : NParam) (index : ℕ) : Exec (CString × ℕ) := do
  let str ← cstring (p.m_buff.drop index)
  .ok (str, add32 index (str.val.length + 1))

/-! ## What the writers append -/

/-- The mask the source puts on a byte keeps all of its bits. -/
@[simp] private theorem and_255 (b : UInt8) : b &&& 255 = b := by
  apply UInt8.toNat_inj.mp
  have h := Nat.and_two_pow_sub_one_eq_mod b.toNat 8
  rw [Nat.mod_eq_of_lt b.toNat_lt] at h
  simpa using h

@[simp] theorem m_buff_addByte (p : NParam) (data : UInt8) :
    (p.addByte data).m_buff = p.m_buff ++ [data] := rfl
@[simp] theorem m_buff_addUint8 (p : NParam) (data : UInt8) :
    (p.addUint8 data).m_buff = p.m_buff ++ [data] := rfl
@[simp] theorem m_buff_addByteArray (p : NParam) (buff : List UInt8) :
    (p.addByteArray buff).m_buff = p.m_buff ++ buff := rfl
@[simp] theorem m_buff_addString (p : NParam) (str : CString) :
    (p.addString str).m_buff = p.m_buff ++ str.bytes := rfl

@[simp] theorem m_buff_addUint16 (p : NParam) (data : UInt16) :
    (p.addUint16 data).m_buff = p.m_buff ++ be16 data := by
  simp [addUint16, be16]

@[simp] theorem addUint32ToByteVector_eq (v : List UInt8) (d : UInt32) :
    addUint32ToByteVector v d = v ++ be32 d := by
  simp [addUint32ToByteVector, be32]

@[simp] theorem m_buff_addUint32 (p : NParam) (data : UInt32) :
    (p.addUint32 data).m_buff = p.m_buff ++ be32 data := by
  simp [addUint32]

@[simp] theorem m_buff_addInt32 (p : NParam) (data : Int32) :
    (p.addInt32 data).m_buff = p.m_buff ++ be32 data.toUInt32 := by
  simp [addInt32]

/-- Apart from the payload, the writers leave a param alone. -/
theorem m_paramID_add (p : NParam) :
    (∀ b, (p.addByte b).m_paramID = p.m_paramID) ∧ (∀ b, (p.addUint8 b).m_paramID = p.m_paramID) ∧
      (∀ x, (p.addUint16 x).m_paramID = p.m_paramID) ∧
      (∀ x, (p.addUint32 x).m_paramID = p.m_paramID) ∧
      (∀ x, (p.addInt32 x).m_paramID = p.m_paramID) ∧
      (∀ s, (p.addString s).m_paramID = p.m_paramID) ∧
      (∀ b, (p.addBool b).m_paramID = p.m_paramID) := by
  refine ⟨fun _ => rfl, fun _ => rfl, fun _ => rfl, fun _ => rfl, fun _ => rfl, fun _ => rfl, ?_⟩
  intro b
  cases b <;> rfl

/-! ## What the readers find -/

/-- `getBool` has a value for every payload. -/
theorem exists_getBool_eq_ok {p : NParam} (hp : p.m_buff.length ≤ 65535) :
    ∃ v, p.getBool = .ok v := by
  have hlength : p.getLength = p.m_buff.length := Nat.mod_eq_of_lt (by omega)
  rw [getBool, hlength]
  split
  · exact ⟨_, rfl⟩
  · rename_i hne
    rw [byteAt_of_lt (Nat.pos_of_ne_zero hne)]
    exact ⟨_, Exec.ok_bind _ _⟩

theorem getByte_eq_ok {p : NParam} {i : ℕ} {b : UInt8} :
    p.getByte i = .ok b ↔ [b] <+: p.m_buff.drop i := by
  simp [getByte, byteAt_eq_ok, cons_prefix_drop]

/-- `getUint16` finds the words whose bytes stand at the index. -/
theorem getUint16_eq_ok {p : NParam} {i : ℕ} {x : UInt16} :
    p.getUint16 i = .ok x ↔ be16 x <+: p.m_buff.drop i := by
  simp only [getUint16, Exec.bind_eq_ok, byteAt_eq_ok, Except.ok.injEq]
  constructor
  · rintro ⟨b₀, h₀, b₁, h₁, rfl⟩
    simp [cons_prefix_drop, h₀, h₁]
  · intro h
    simp only [be16, cons_prefix_drop, List.nil_prefix, and_true] at h
    exact ⟨_, h.1, _, h.2, ofBE16_be16 x⟩

/-- Four bytes that make a word are those of the word. -/
theorem exists_ofBE32_iff {b : List UInt8} {i : ℕ} {x : UInt32} :
    (∃ b₀, b[i]? = some b₀ ∧ ∃ b₁, b[i + 1]? = some b₁ ∧ ∃ b₂, b[i + 2]? = some b₂ ∧
      ∃ b₃, b[i + 3]? = some b₃ ∧ ofBE32 b₀ b₁ b₂ b₃ = x) ↔ be32 x <+: b.drop i := by
  constructor
  · rintro ⟨b₀, h₀, b₁, h₁, b₂, h₂, b₃, h₃, rfl⟩
    simp [cons_prefix_drop, h₀, h₁, h₂, h₃]
  · intro h
    simp only [be32, cons_prefix_drop, List.nil_prefix, and_true] at h
    exact ⟨_, h.1, _, h.2.1, _, h.2.2.1, _, h.2.2.2, ofBE32_be32 x⟩

/-- `getUint32FromByteArray` finds the words whose bytes stand at a sixteen-bit index. -/
theorem getUint32FromByteArray_eq_ok {b : List UInt8} {i : ℕ} (hi : i < 2 ^ 16) {x : UInt32} :
    getUint32FromByteArray b i = .ok x ↔ be32 x <+: b.drop i := by
  simp only [getUint32FromByteArray, Nat.mod_eq_of_lt hi, Exec.bind_eq_ok, byteAt_eq_ok,
    Except.ok.injEq]
  exact exists_ofBE32_iff

theorem getUint32_eq_ok {p : NParam} {i : ℕ} (hi : i < 2 ^ 16) {x : UInt32} :
    p.getUint32 i = .ok x ↔ be32 x <+: p.m_buff.drop i := getUint32FromByteArray_eq_ok hi

/-- `getInt32` finds the words whose bytes stand at the index, and converts them once more. -/
theorem getInt32_eq_ok {host : Endian} {p : NParam} {i : ℕ} {x : Int32} :
    p.getInt32 host i = .ok x ↔ ∃ w, x = (ntohl host w).toInt32 ∧ be32 w <+: p.m_buff.drop i := by
  simp only [getInt32, Exec.bind_eq_ok, byteAt_eq_ok, Except.ok.injEq]
  constructor
  · rintro ⟨b₀, h₀, b₁, h₁, b₂, h₂, b₃, h₃, rfl⟩
    exact ⟨_, rfl, by simp [cons_prefix_drop, h₀, h₁, h₂, h₃]⟩
  · rintro ⟨w, rfl, h⟩
    simp only [be32, cons_prefix_drop, List.nil_prefix, and_true] at h
    exact ⟨_, h.1, _, h.2.1, _, h.2.2.1, _, h.2.2.2, by rw [ofBE32_be32]⟩

theorem getString_eq_ok {p : NParam} {i : ℕ} {s : CString} :
    p.getString i = .ok s ↔ s.bytes <+: p.m_buff.drop i := cstring_eq_ok

/-- A reader that advances its index by a known number of bytes. -/
private theorem advance_eq_ok {α : Type} {get : Exec α} {found : α → Prop}
    (hget : ∀ v, get = .ok v ↔ found v) {next : α → ℕ} {v : α} {j : ℕ} :
    (get >>= fun r => .ok (r, next r)) = .ok (v, j) ↔ found v ∧ j = next v := by
  simp only [Exec.bind_eq_ok, hget, Except.ok.injEq, Prod.mk.injEq]
  constructor
  · rintro ⟨r, hr, rfl, rfl⟩
    exact ⟨hr, rfl⟩
  · rintro ⟨hv, rfl⟩
    exact ⟨v, hv, rfl, rfl⟩

theorem incGetByte_eq_ok {p : NParam} {i : ℕ} {b : UInt8} {j : ℕ} :
    p.incGetByte i = .ok (b, j) ↔ [b] <+: p.m_buff.drop i ∧ j = add32 i 1 :=
  advance_eq_ok (fun _ => getByte_eq_ok (p := p))

/-- `incGetUint16` finds what `getUint16` does, on every host. -/
theorem incGetUint16_eq_ok {host : Endian} {p : NParam} {i : ℕ} {x : UInt16} {j : ℕ} :
    p.incGetUint16 host i = .ok (x, j) ↔ be16 x <+: p.m_buff.drop i ∧ j = add32 i 2 := by
  have heq : p.incGetUint16 host i = p.getUint16 i >>= fun r => .ok (r, add32 i 2) := by
    simp only [incGetUint16, getUint16, ntohs_load16]
    cases byteAt p.m_buff i <;> cases byteAt p.m_buff (i + 1) <;> rfl
  rw [heq]
  exact advance_eq_ok fun _ => getUint16_eq_ok

/-- `incGetUint32` reads at the lower sixteen bits of its index, and advances all of it. -/
theorem incGetUint32_eq_ok {p : NParam} {i : ℕ} {x : UInt32} {j : ℕ} :
    p.incGetUint32 i = .ok (x, j) ↔ be32 x <+: p.m_buff.drop (i % 2 ^ 16) ∧ j = add32 i 4 := by
  have hget : ∀ r, getUint32FromByteArray p.m_buff i = .ok r ↔
      be32 r <+: p.m_buff.drop (i % 2 ^ 16) := by
    intro r
    simp only [getUint32FromByteArray, Exec.bind_eq_ok, byteAt_eq_ok, Except.ok.injEq]
    exact exists_ofBE32_iff
  exact advance_eq_ok hget

/-- `incGetInt32` finds the words whose bytes stand at the index, on every host. -/
theorem incGetInt32_eq_ok {host : Endian} {p : NParam} {i : ℕ} {x : Int32} {j : ℕ} :
    p.incGetInt32 host i = .ok (x, j) ↔
      be32 x.toUInt32 <+: p.m_buff.drop i ∧ j = add32 i 4 := by
  rw [← exists_ofBE32_iff]
  simp only [incGetInt32, ntohl_load32, Exec.bind_eq_ok, byteAt_eq_ok, Except.ok.injEq,
    Prod.mk.injEq]
  constructor
  · rintro ⟨b₀, h₀, b₁, h₁, b₂, h₂, b₃, h₃, rfl, rfl⟩
    exact ⟨⟨b₀, h₀, b₁, h₁, b₂, h₂, b₃, h₃, rfl⟩, rfl⟩
  · rintro ⟨⟨b₀, h₀, b₁, h₁, b₂, h₂, b₃, h₃, hx⟩, rfl⟩
    exact ⟨b₀, h₀, b₁, h₁, b₂, h₂, b₃, h₃, congrArg UInt32.toInt32 hx, rfl⟩

theorem incGetString_eq_ok {p : NParam} {i : ℕ} {s : CString} {j : ℕ} :
    p.incGetString i = .ok (s, j) ↔
      s.bytes <+: p.m_buff.drop i ∧ j = add32 i (s.val.length + 1) :=
  advance_eq_ok (fun _ => getString_eq_ok (p := p))

end NParam

end CppCore.Ngp
