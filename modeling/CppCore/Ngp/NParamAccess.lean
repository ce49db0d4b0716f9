import CppCore.Ngp.NParam

/-!
# The readers of a param, against its writers

Each type of value has a reader at an index, one that advances an index and, for the words, one
for arrays.  Some put a word together by shifts, some load it from memory and convert it from
network order; `getInt32` does both, so on a little-endian host it returns the bytes of the word
in reverse.

## Main definitions

* `NParamElement` — a value that can be added to a param and read from it.
* `NParam.ofUint16s`, `NParam.ofUint32s`, `NParam.ofInt32s` — params made from arrays.
* `AccessorsAgree` — every reader finds what was added.
* `accessorsAgree_iff` — they do if the host is big-endian or signed words read the same from both
  ends.
-/

namespace CppCore.Ngp

open Lib

/-! ## Arrays -/

namespace NParam

/-- `NParam::NParam( paramID, data, len )` for `uint16`. -/
def ofUint16s (paramID : UInt16) (data : List UInt16) : NParam :=
  data.foldl addUint16 (ofID paramID)

/-- `NParam::NParam( paramID, data, len )` for `uint32`. -/
def ofUint32s (paramID : UInt16) (data : List UInt32) : NParam :=
  data.foldl addUint32 (ofID paramID)

/-- `NParam::NParam( paramID, data, len )` for `int32`. -/
def ofInt32s (paramID : UInt16) (data : List Int32) : NParam :=
  data.foldl addInt32 (ofID paramID)

/-- `NParam::getUint16Array`. -/
def getUint16Array (host : Endian) (p : NParam) (index : ℕ) : Exec UInt16 := do
  let b₀ ← byteAt p.m_buff (2 * index)
  let b₁ ← byteAt p.m_buff (2 * index + 1)
  .ok (ntohs host (load16 host b₀ b₁))

/-- `NParam::getUint32Array`. -/
def getUint32Array (host : Endian) (p : NParam) (index : ℕ) : Exec UInt32 := do
  let b₀ ← byteAt p.m_buff (4 * index)
  let b₁ ← byteAt p.m_buff (4 * index + 1)
  let b₂ ← byteAt p.m_buff (4 * index + 2)
  let b₃ ← byteAt p.m_buff (4 * index + 3)
  .ok (ntohl host (load32 host b₀ b₁ b₂ b₃))

/-- `NParam::getInt32Array`. -/
def getInt32Array (host : Endian) (p : NParam) (index : ℕ) : Exec Int32 := do
  let word ← p.getUint32Array host index
  .ok word.toInt32

end NParam

/-! ## Elements -/

/-- A value that can be added to a param. -/
inductive NParamElement
  | uint8 (data : UInt8)
  | uint16 (data : UInt16)
  | uint32 (data : UInt32)
  | int32 (data : Int32)
  | string (str : CString)

namespace NParamElement

/-- Add a value. -/
def add (p : NParam) : NParamElement → NParam
  | uint8 data => p.addUint8 data
  | uint16 data => p.addUint16 data
  | uint32 data => p.addUint32 data
  | int32 data => p.addInt32 data
  | string str => p.addString str

/-- The bytes that are added. -/
def encoding : NParamElement → List UInt8
  | uint8 data => [data]
  | uint16 data => be16 data
  | uint32 data => be32 data
  | int32 data => be32 data.toUInt32
  | string str => str.bytes

/-- Read a value of the same type. -/
def get (host : Endian) (p : NParam) (index : ℕ) : NParamElement → Exec NParamElement
  | uint8 _ => (p.getUint8 index).map uint8
  | uint16 _ => (p.getUint16 index).map uint16
  | uint32 _ => (p.getUint32 index).map uint32
  | int32 _ => (p.getInt32 host index).map int32
  | string _ => (p.getString index).map string

/-- Read a value of the same type and advance the index. -/
def incGet (host : Endian) (p : NParam) (index : ℕ) : NParamElement → Exec (NParamElement × ℕ)
  | uint8 _ => (p.incGetUint8 index).map (Prod.map uint8 id)
  | uint16 _ => (p.incGetUint16 host index).map (Prod.map uint16 id)
  | uint32 _ => (p.incGetUint32 index).map (Prod.map uint32 id)
  | int32 _ => (p.incGetInt32 host index).map (Prod.map int32 id)
  | string _ => (p.incGetString index).map (Prod.map string id)

end NParamElement

/-- The param with the values, in their order. -/
def NParam.ofElements (paramID : UInt16) (elements : List NParamElement) : NParam :=
  elements.foldl NParamElement.add (ofID paramID)

/-- Where a value starts, behind others. -/
def offset (elements : List NParamElement) : ℕ := (elements.flatMap NParamElement.encoding).length

/-- Every reader finds what was added: the values at their offsets, and those of an array at
their indexes. -/
structure AccessorsAgree (host : Endian) (paramID : UInt16) (elements : List NParamElement) :
    Prop where
  get : ∀ before element after, elements = before ++ element :: after →
    element.get host (.ofElements paramID elements) (offset before) = .ok element
  incGet : ∀ before element after, elements = before ++ element :: after →
    element.incGet host (.ofElements paramID elements) (offset before) =
      .ok (element, offset (before ++ [element]))
  uint16Array : ∀ (data : List UInt16) i (h : i < data.length), data.length < 2 ^ 16 →
    (NParam.ofUint16s paramID data).getUint16Array host i = .ok data[i]
  uint32Array : ∀ (data : List UInt32) i (h : i < data.length), data.length < 2 ^ 16 →
    (NParam.ofUint32s paramID data).getUint32Array host i = .ok data[i]
  int32Array : ∀ (data : List Int32) i (h : i < data.length), data.length < 2 ^ 16 →
    (NParam.ofInt32s paramID data).getInt32Array host i = .ok data[i]

/-! ## Payloads -/

namespace NParam

/-- Adding one value after the other appends their bytes. -/
theorem m_buff_foldl {α : Type} {add : NParam → α → NParam} {enc : α → List UInt8}
    (hadd : ∀ p x, (add p x).m_buff = p.m_buff ++ enc x) (l : List α) (p : NParam) :
    (l.foldl add p).m_buff = p.m_buff ++ l.flatMap enc := by
  induction l generalizing p with
  | nil => simp
  | cons x l ih => rw [List.foldl_cons, ih, hadd, List.flatMap_cons, List.append_assoc]

/-- The bytes of one value stand behind those of the values before it. -/
theorem encoding_at {α : Type} (enc : α → List UInt8) (before after : List α) (x : α) :
    enc x <+: ((before ++ x :: after).flatMap enc).drop (before.flatMap enc).length := by
  rw [List.flatMap_append, List.drop_left, List.flatMap_cons]
  exact List.prefix_append _ _

theorem length_flatMap_of_length {α : Type} {enc : α → List UInt8} {k : ℕ}
    (henc : ∀ x, (enc x).length = k) (l : List α) : (l.flatMap enc).length = k * l.length := by
  induction l with
  | nil => rfl
  | cons x l ih =>
    rw [List.flatMap_cons, List.length_append, ih, henc, List.length_cons, Nat.mul_succ,
      Nat.add_comm]

/-- The bytes of a value in an array. -/
theorem encoding_at_index {α : Type} {enc : α → List UInt8} {k : ℕ}
    (henc : ∀ x, (enc x).length = k) {l : List α} {i : ℕ} (h : i < l.length) :
    enc l[i] <+: (l.flatMap enc).drop (k * i) := by
  have hat := encoding_at enc (l.take i) (l.drop (i + 1)) l[i]
  rwa [List.getElem_cons_drop, List.take_append_drop, length_flatMap_of_length henc,
    List.length_take_of_le h.le] at hat

theorem getUint16Array_eq_ok {host : Endian} {p : NParam} {i : ℕ} {x : UInt16} :
    p.getUint16Array host i = .ok x ↔ be16 x <+: p.m_buff.drop (2 * i) := by
  rw [← getUint16_eq_ok]
  simp only [getUint16Array, getUint16, ntohs_load16]

theorem getUint32Array_eq_ok {host : Endian} {p : NParam} {i : ℕ} {x : UInt32} :
    p.getUint32Array host i = .ok x ↔ be32 x <+: p.m_buff.drop (4 * i) := by
  simp only [getUint32Array, ntohl_load32, Exec.bind_eq_ok, byteAt_eq_ok, Except.ok.injEq]
  exact exists_ofBE32_iff

/-- The payload of a param made from an array. -/
theorem m_buff_ofArray {α : Type} {add : NParam → α → NParam} {enc : α → List UInt8}
    (hadd : ∀ p x, (add p x).m_buff = p.m_buff ++ enc x) (paramID : UInt16) (data : List α) :
    (data.foldl add (ofID paramID)).m_buff = data.flatMap enc := by
  rw [m_buff_foldl hadd]
  rfl

theorem getUint16Array_ofUint16s (host : Endian) (paramID : UInt16) {data : List UInt16} {i : ℕ}
    (h : i < data.length) : (ofUint16s paramID data).getUint16Array host i = .ok data[i] := by
  rw [getUint16Array_eq_ok, ofUint16s, m_buff_ofArray m_buff_addUint16]
  exact encoding_at_index length_be16 h

theorem getUint32Array_ofUint32s (host : Endian) (paramID : UInt16) {data : List UInt32} {i : ℕ}
    (h : i < data.length) : (ofUint32s paramID data).getUint32Array host i = .ok data[i] := by
  rw [getUint32Array_eq_ok, ofUint32s, m_buff_ofArray m_buff_addUint32]
  exact encoding_at_index length_be32 h

theorem getInt32Array_ofInt32s (host : Endian) (paramID : UInt16) {data : List Int32} {i : ℕ}
    (h : i < data.length) : (ofInt32s paramID data).getInt32Array host i = .ok data[i] := by
  have hlen : ∀ x : Int32, (be32 x.toUInt32).length = 4 := fun x => length_be32 x.toUInt32
  have hword : (ofInt32s paramID data).getUint32Array host i = .ok data[i].toUInt32 := by
    rw [getUint32Array_eq_ok, ofInt32s, m_buff_ofArray m_buff_addInt32]
    exact encoding_at_index hlen h
  rw [getInt32Array, hword, Exec.ok_bind]
  rfl

end NParam

/-! ## Readers of elements -/

namespace NParamElement

variable {host : Endian} {p : NParam} {i : ℕ}

@[simp] theorem m_buff_add (p : NParam) (element : NParamElement) :
    (element.add p).m_buff = p.m_buff ++ element.encoding := by
  cases element <;> simp [add, encoding]

/-- A reader at an index finds the value that stands there, unless it is a signed word that does
not survive another conversion. -/
theorem get_eq_ok (hi : i < 2 ^ 16) {element : NParamElement}
    (h : element.encoding <+: p.m_buff.drop i) :
    element.get host p i = .ok element ↔
      ∀ data, element = int32 data → ntohl host data.toUInt32 = data.toUInt32 := by
  cases element with
  | uint8 data =>
    have hget : p.getUint8 i = .ok data := NParam.getByte_eq_ok.mpr h
    simp [get, hget, Except.map]
  | uint16 data =>
    have hget := NParam.getUint16_eq_ok.mpr h
    simp [get, hget, Except.map]
  | uint32 data =>
    have hget := (NParam.getUint32_eq_ok hi).mpr h
    simp [get, hget, Except.map]
  | int32 data =>
    have hget : p.getInt32 host i = .ok (ntohl host data.toUInt32).toInt32 :=
      NParam.getInt32_eq_ok.mpr ⟨data.toUInt32, rfl, h⟩
    simp only [get, hget, Except.map, Except.ok.injEq, int32.injEq, forall_eq']
    constructor
    · intro hdata
      exact congrArg Int32.toUInt32 hdata
    · intro hdata
      rw [hdata]
      rfl
  | string str =>
    have hget := NParam.getString_eq_ok.mpr h
    simp [get, hget, Except.map]

/-- An advancing reader finds the value that stands at its index, and ends behind it. -/
theorem incGet_eq_ok (hp : p.m_buff.length ≤ 65535) (hi : i ≤ 65535) {element : NParamElement}
    (h : element.encoding <+: p.m_buff.drop i) :
    element.incGet host p i = .ok (element, i + element.encoding.length) := by
  have hnext : add32 i element.encoding.length = i + element.encoding.length :=
    add32_of_lt (by have := end_le_bound h hp hi; omega)
  rw [← hnext]
  cases element with
  | uint8 data =>
    have hget := NParam.incGetByte_eq_ok.mpr ⟨h, rfl⟩
    simp [incGet, NParam.incGetUint8, hget, Except.map, encoding]
  | uint16 data =>
    have hget := (@NParam.incGetUint16_eq_ok host _ _ _ _).mpr ⟨h, rfl⟩
    simp [incGet, hget, Except.map, encoding]
  | uint32 data =>
    have hlow : i % 2 ^ 16 = i := Nat.mod_eq_of_lt (by omega)
    have hget := NParam.incGetUint32_eq_ok.mpr ⟨hlow.symm ▸ h, rfl⟩
    simp [incGet, hget, Except.map, encoding]
  | int32 data =>
    have hget := (@NParam.incGetInt32_eq_ok host _ _ _ _).mpr ⟨h, rfl⟩
    simp [incGet, hget, Except.map, encoding]
  | string str =>
    have hget := NParam.incGetString_eq_ok.mpr ⟨h, rfl⟩
    simp [incGet, hget, Except.map, encoding]

end NParamElement

/-! ## Agreement -/

/-- **The readers of a param agree with its writers exactly if** the host is big-endian or the
signed words read the same from both ends. -/
theorem accessorsAgree_iff (host : Endian) (paramID : UInt16) (elements : List NParamElement)
    (htotal : offset elements ≤ 65535) :
    AccessorsAgree host paramID elements ↔ host = .big ∨ ∀ data,
      NParamElement.int32 data ∈ elements →
        (be32 data.toUInt32).reverse = be32 data.toUInt32 := by
  have hbuff : (NParam.ofElements paramID elements).m_buff =
      elements.flatMap NParamElement.encoding :=
    NParam.m_buff_foldl NParamElement.m_buff_add elements _
  -- what stands at the offset of an element
  have hat : ∀ before element after, elements = before ++ element :: after →
      element.encoding <+: (NParam.ofElements paramID elements).m_buff.drop (offset before) ∧
        offset before < 2 ^ 16 := by
    intro before element after h
    have hlen := congrArg offset h
    simp only [offset, List.flatMap_append, List.length_append] at hlen htotal
    rw [hbuff, h]
    exact ⟨NParam.encoding_at _ _ _ _, by unfold offset; omega⟩
  have hconvert : (∀ before element after, elements = before ++ element :: after →
      element.get host (.ofElements paramID elements) (offset before) = .ok element) ↔
      host = .big ∨ ∀ data, NParamElement.int32 data ∈ elements →
        (be32 data.toUInt32).reverse = be32 data.toUInt32 := by
    rw [← forall_or_left]
    constructor
    · intro h data
      by_cases hbig : host = .big
      · exact .inl hbig
      · refine .inr fun hmem => ?_
        obtain ⟨before, after, hsplit⟩ := List.append_of_mem hmem
        obtain ⟨hstands, hlt⟩ := hat _ _ _ hsplit
        have hself := (NParamElement.get_eq_ok hlt hstands).mp (h _ _ _ hsplit) data rfl
        exact (ntohl_eq_self.mp hself).resolve_left hbig
    · intro h before element after hsplit
      obtain ⟨hstands, hlt⟩ := hat _ _ _ hsplit
      refine (NParamElement.get_eq_ok hlt hstands).mpr fun data hdata => ?_
      exact ntohl_eq_self.mpr ((h data).imp_right fun h => h (by simp [hsplit, hdata]))
  refine ⟨fun h => hconvert.mp h.get, fun h => ⟨hconvert.mpr h, ?_, ?_, ?_, ?_⟩⟩
  · intro before element after hsplit
    obtain ⟨hstands, hlt⟩ := hat _ _ _ hsplit
    rw [NParamElement.incGet_eq_ok (hbuff ▸ htotal) (by omega) hstands]
    simp [offset]
  · exact fun data i hi _ => NParam.getUint16Array_ofUint16s host paramID hi
  · exact fun data i hi _ => NParam.getUint32Array_ofUint32s host paramID hi
  · exact fun data i hi _ => NParam.getInt32Array_ofInt32s host paramID hi

/-- A signed word that reads the same from both ends, on a little-endian host. -/
theorem accessorsAgree_iff_one :
    AccessorsAgree .little 1 [.uint8 7, .int32 (-1), .string .empty] := by
  refine (accessorsAgree_iff .little 1 _ (by decide)).mpr (.inr fun data hmem => ?_)
  obtain rfl : data = -1 := by simpa using hmem
  decide

/-- **The readers do not always agree**: `getInt32` converts a word that was put together by
shifts. -/
theorem not_forall_accessorsAgree :
    ¬∀ (host : Endian) (paramID : UInt16) (elements : List NParamElement),
      offset elements ≤ 65535 → AccessorsAgree host paramID elements := by
  intro h
  have hget := (h .little 1 [.int32 1] (by decide)).get [] (.int32 1) [] rfl
  have hread : (NParamElement.int32 1).get .little (.ofElements 1 [.int32 1]) 0 =
      .ok (.int32 16777216) := by
    rfl
  have heq := NParamElement.int32.inj (Exec.unique hget hread)
  exact absurd heq (by decide)

end CppCore.Ngp
