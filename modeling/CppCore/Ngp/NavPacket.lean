import CppCore.Lib.Keystream
import CppCore.Ngp.NParamBlock
import CppCore.Utils.Crc32

/-!
# Packets

A packet on the wire is the byte `0x02`, the total length, the header, the param block and a
checksum of everything before it.  From offset 10, behind the request version, it is combined
with the keystream of `wf_ngp_encrypt`.

The part of the header that a subclass adds is an argument of `writeTo`.

## Main definitions

* `wf_ngp_encrypt` — the encryption; `wf_ngp_encrypt_eq` gives the bytes it leaves.
* `NavPacket`, `NavPacket.writeTo` — a packet and its encoding.
* `NavPacket.wire` — the encoding, laid out.
* `NavPacket.writeToInternal_eq` — it is what is written.
-/

namespace CppCore.Ngp

open Lib Utils

/-! ## Encryption -/

/-- `XORSTRING`. -/
def XORSTRING : List UInt8 := [
  0x37, 0x77, 0x89, 0x05, 0x28, 0x72, 0x5b, 0x2a, 0xce, 0xe4, 0x44, 0x1a,
  0x28, 0x72, 0x5b, 0x2a, 0xce, 0xe4, 0x44, 0x1a, 0x79, 0x8a, 0xdb, 0x90,
  0xce, 0xe4, 0x44, 0x1a, 0x79, 0x8a, 0xdb, 0x90, 0x2f, 0x5b, 0xcc, 0xd1,
  0x79, 0x8a, 0xdb, 0x90, 0x2f, 0x5b, 0xcc, 0xd1, 0x6e, 0x72, 0xb4, 0x9a,
  0x2f, 0x5b, 0xcc, 0xd1, 0x6e, 0x72, 0xb4, 0x9a, 0x79, 0x9b, 0xa5, 0x2b,
  0x6e, 0x72, 0xb4, 0x9a, 0x79, 0x9b, 0xa5, 0x2b, 0x45, 0x6a, 0xc1, 0x7c,
  0x79, 0x9b, 0xa5, 0x2b, 0x45, 0x6a, 0xc1, 0x7c, 0xe0, 0x4a, 0x81, 0x08,
  0x45, 0x6a, 0xc1, 0x7c, 0xe0, 0x4a, 0x81, 0x08, 0xbc, 0xdb, 0x31, 0x8a,
  0xe0, 0x4a, 0x81, 0x08, 0xbc, 0xdb, 0x31, 0x8a, 0xbe, 0x75, 0xa3, 0x36,
  0xbc, 0xdb, 0x31, 0x8a, 0xbe, 0x75, 0xa3, 0x36, 0xfe, 0x7d, 0xc6, 0x2c,
  0xbe, 0x75, 0xa3, 0x36, 0xfe, 0x7d, 0xc6, 0x2c, 0xd8, 0x91, 0xfc, 0x45,
  0xfe, 0x7d, 0xc6, 0x2c, 0xd8, 0x91, 0xfc, 0x45, 0x03, 0xb0, 0xde, 0x7b,
  0xd8, 0x91, 0xfc, 0x45, 0x03, 0xb0, 0xde, 0x7b, 0x4b, 0x82, 0xa6, 0x90,
  0x03, 0xb0, 0xde, 0x7b, 0x4b, 0x82, 0xa6, 0x90, 0xeb, 0x67, 0x0c, 0xcb,
  0x4b, 0x82, 0xa6, 0x90, 0xeb, 0x67, 0x0c, 0xcb, 0xb0, 0x8c, 0xd2, 0x6c,
  0xeb, 0x67, 0x0c, 0xcb, 0xb0, 0x8c, 0xd2, 0x6c, 0x67, 0x03, 0xf5, 0x24,
  0xb0, 0x8c, 0xd2, 0x6c, 0x67, 0x03, 0xf5, 0x24, 0x77, 0x98, 0x5a, 0x74,
  0x67, 0x03, 0xf5, 0x24, 0x77, 0x98, 0x5a, 0x74, 0x14, 0x1f, 0x9f, 0xec,
  0x77, 0x98, 0x5a, 0x74, 0x14, 0x1f, 0x9f, 0xec, 0xb0, 0x9b, 0x30, 0xb2,
  0x14, 0x1f, 0x9f, 0xec, 0xb0, 0x9b, 0x30, 0xb2, 0x4b, 0x0e, 0x2d, 0x95,
  0xb0, 0x9b, 0x30, 0xb2, 0x4b, 0x0e, 0x2d, 0x95, 0x90, 0xd3, 0x25, 0x7a,
  0x4b, 0x0e, 0x2d, 0x95]

/-- `XORLEN`. -/
def XORLEN : ℕ := 256

/-- The position in `XORSTRING` after `magicPos`. -/
def nextMagicPos (magicPos : ℕ) : ℕ := if XORLEN ≤ magicPos + 1 then 0 else magicPos + 1

/-- Bytes combined with `XORSTRING` from its start, over and over. -/
def keyed (bs : List UInt8) : List UInt8 :=
  xorStream nextMagicPos (fun magicPos => XORSTRING.getD magicPos 0) 0 bs

/-- `wf_ngp_encrypt( &buff[ start ], length )`, in place. -/
def wf_ngp_encrypt (buff : List UInt8) (start length : ℕ) : Exec (List UInt8) := do
  let bytes ← slice buff start length
  .ok (buff.take start ++ keyed bytes ++ buff.drop (start + length))

@[simp] theorem length_keyed (bs : List UInt8) : (keyed bs).length = bs.length :=
  length_xorStream _ _ _ _

@[simp] theorem keyed_keyed (bs : List UInt8) : keyed (keyed bs) = bs :=
  xorStream_xorStream _ _ _ _

/-- Encrypting up to the end of an array. -/
theorem wf_ngp_encrypt_append (clear secret : List UInt8) :
    wf_ngp_encrypt (clear ++ secret) clear.length secret.length = .ok (clear ++ keyed secret) := by
  have hslice : slice (clear ++ secret) clear.length secret.length = .ok secret :=
    slice_eq_ok.mpr ⟨by simp, by simp⟩
  simp [wf_ngp_encrypt, hslice]

/-- **Encryption to the end is defined exactly on arrays that reach its start**; the length it
is given otherwise wraps to one no array has. -/
theorem wf_ngp_encrypt_eq_ok {data out : List UInt8} {start : ℕ} (hdata : data.length < 2 ^ 32)
    (hstart : start ≤ 2 ^ 31) :
    wf_ngp_encrypt data start (sub32 data.length start) = .ok out ↔
      start ≤ data.length ∧ out = data.take start ++ keyed (data.drop start) := by
  by_cases hle : start ≤ data.length
  · have hsplit := wf_ngp_encrypt_append (data.take start) (data.drop start)
    rw [List.take_append_drop, List.length_take, List.length_drop, Nat.min_eq_left hle] at hsplit
    rw [sub32_of_le hle hdata, hsplit]
    simp [hle, eq_comm]
  · have hwrap := sub32_of_lt (by omega : data.length < start) hstart
    rw [wf_ngp_encrypt, slice, if_neg (by omega)]
    simp [hle]

/-! ## Packets -/

/-- A packet, without what its subclasses add. -/
structure NavPacket where
  /-- The protocol version. -/
  m_protoVer : UInt8
  /-- The type of packet. -/
  m_type : UInt16
  /-- The ID of the packet. -/
  m_reqID : UInt8
  /-- The version of type. -/
  m_reqVer : UInt8
  /-- The parameter block. -/
  m_params : NParamBlock
  deriving DecidableEq

namespace NavPacket

/-- `NavPacket::NavPacket( protoVer, type, reqID, reqVer )`. -/
def new (protoVer : UInt8) (type : UInt16) (reqID reqVer : UInt8) : NavPacket :=
  ⟨protoVer, type, reqID, reqVer, NParamBlock.empty⟩

/-- `NavPacket::setReqID`. -/
def setReqID (p : NavPacket) (reqId : UInt8) : NavPacket := { p with m_reqID := reqId }

/-- `NavPacket::getCurrentProtoVer`. -/
def getCurrentProtoVer : UInt8 := 0xc

/-- The bytes `writeToInternal` pushes first: marker, room for the length, the header. -/
def fixedHeader (p : NavPacket) : List UInt8 :=
  [0x02, 0, 0, 0, 0, p.m_protoVer, (p.m_type >>> 8).toUInt8, (p.m_type &&& 0xff).toUInt8,
    p.m_reqID, p.m_reqVer]

/-- The assignments to `buff[ 1 ]` up to `buff[ 4 ]`: the length that `buff` will have with the
checksum. -/
def writeLength (buff : List UInt8) : List UInt8 :=
  buff.take 1 ++ be32 (UInt32.ofNat (buff.length + 4)) ++ buff.drop 5

/-- `NavPacket::writeToInternal`, for the header part `specific` writes. -/
def writeToInternal (zip : GunzipUtil) (p : NavPacket)
    (writeSpecificHeaderPart : List UInt8 → Exec (List UInt8)) (buff : List UInt8)
    (params : NParamBlock) : Exec (List UInt8) := do
  let buff ← writeSpecificHeaderPart (buff ++ p.fixedHeader)
  let buff ← params.writeParamsInto zip buff p.m_protoVer
  let buff := writeLength buff
  let crc := calcCrc32 buff
  let buff := NParam.addUint32ToByteVector buff crc
  if vectorMaxSize < buff.length then
    .error .lengthError
  else
    wf_ngp_encrypt buff 10 (sub32 buff.length 10)

/-- `NavPacket::writeTo( buff )`. -/
def writeTo (zip : GunzipUtil) (p : NavPacket)
    (writeSpecificHeaderPart : List UInt8 → Exec (List UInt8)) (buff : List UInt8) :
    Exec (List UInt8) :=
  p.writeToInternal zip writeSpecificHeaderPart buff p.m_params

/-- `NavPacket::writeTo( buff, extraParams )`. -/
def writeToWith (zip : GunzipUtil) (p : NavPacket)
    (writeSpecificHeaderPart : List UInt8 → Exec (List UInt8)) (buff : List UInt8)
    (extraParams : List NParam) : Exec (List UInt8) :=
  let params := extraParams.foldl NParamBlock.addParam (NParamBlock.empty.assignToThis p.m_params)
  p.writeToInternal zip writeSpecificHeaderPart buff params

/-! ## The encoding laid out -/

/-- The header part a subclass adds by appending bytes. -/
def appends (header : List UInt8) (buff : List UInt8) : Exec (List UInt8) := .ok (buff ++ header)

/-- The clear bytes of an encoding behind the length field. -/
def clearHeader (p : NavPacket) : List UInt8 :=
  [p.m_protoVer] ++ be16 p.m_type ++ [p.m_reqID] ++ [p.m_reqVer]

/-- The bytes of an encoding that are encrypted, but for the checksum at their end. -/
def body (zip : GunzipUtil) (p : NavPacket) (header : List UInt8) (params : NParamBlock) :
    List UInt8 :=
  header ++ params.encoding zip p.m_protoVer

/-- The start of an encoding whose encrypted bytes are `n`: the marker, the length, the header. -/
def start (p : NavPacket) (n : ℕ) : List UInt8 :=
  ([0x02] : List UInt8) ++ be32 (UInt32.ofNat (n + 10)) ++ p.clearHeader

/-- The checksum of an encoding. -/
def checksum (zip : GunzipUtil) (p : NavPacket) (header : List UInt8) (params : NParamBlock) :
    UInt32 :=
  calcCrc32 (p.start ((p.body zip header params).length + 4) ++ p.body zip header params)

/-- The encoding of a packet. -/
def wire (zip : GunzipUtil) (p : NavPacket) (header : List UInt8) (params : NParamBlock) :
    List UInt8 :=
  p.start ((p.body zip header params).length + 4) ++
    keyed (p.body zip header params ++ be32 (p.checksum zip header params))

@[simp] theorem length_clearHeader (p : NavPacket) : p.clearHeader.length = 5 := rfl
@[simp] theorem length_start (p : NavPacket) (n : ℕ) : (p.start n).length = 10 := rfl

@[simp] theorem length_wire (zip : GunzipUtil) (p : NavPacket) (header : List UInt8)
    (params : NParamBlock) :
    (p.wire zip header params).length = (p.body zip header params).length + 14 := by
  simp [wire]
  omega

/-- **Into an empty vector, `writeTo` writes the encoding**, or throws when that is larger than
a vector can be. -/
theorem writeToInternal_eq (zip : GunzipUtil) (p : NavPacket) (header : List UInt8)
    (params : NParamBlock) :
    p.writeToInternal zip (appends header) [] params =
      if vectorMaxSize < (p.wire zip header params).length then .error .lengthError
      else .ok (p.wire zip header params) := by
  have hlen : ([] ++ p.fixedHeader ++ header ++ params.encoding zip p.m_protoVer).length + 4 =
      (p.body zip header params).length + 4 + 10 := by
    simp [fixedHeader, body]
  have hbuff : writeLength ([] ++ p.fixedHeader ++ header ++ params.encoding zip p.m_protoVer) =
      p.start ((p.body zip header params).length + 4) ++ p.body zip header params := by
    rw [writeLength, hlen]
    simp [fixedHeader, start, clearHeader, body, be16]
  have hcrypt := wf_ngp_encrypt_append (p.start ((p.body zip header params).length + 4))
    (p.body zip header params ++ be32 (p.checksum zip header params))
  simp only [writeToInternal, appends, Exec.ok_bind, NParamBlock.writeParamsInto_eq]
  by_cases hlarge : vectorMaxSize <
      ([] ++ p.fixedHeader ++ header ++ params.encoding zip p.m_protoVer).length
  · rw [if_pos hlarge, Exec.error_bind, length_wire, if_pos (by omega)]
  rw [if_neg hlarge, Exec.ok_bind, hbuff, NParam.addUint32ToByteVector_eq]
  have hsize : (p.start ((p.body zip header params).length + 4) ++ p.body zip header params ++
      be32 (p.checksum zip header params)).length = (p.wire zip header params).length := by
    simp
    omega
  rw [← checksum, hsize]
  split
  · rfl
  · rename_i hfits
    have hmax : vectorMaxSize < 2 ^ 32 := by decide
    have hsecret : sub32 (p.wire zip header params).length 10 =
        (p.body zip header params ++ be32 (p.checksum zip header params)).length := by
      rw [sub32_of_le (by simp) (by omega)]
      simp
    rw [hsecret, List.append_assoc]
    exact hcrypt

/-- Behind marker and length an encoding has the clear header and the encrypted bytes. -/
theorem drop_wire (zip : GunzipUtil) (p : NavPacket) (header : List UInt8) (params : NParamBlock) :
    (p.wire zip header params).drop 5 =
      p.clearHeader ++ keyed (p.body zip header params ++ be32 (p.checksum zip header params)) :=
  rfl

end NavPacket

end CppCore.Ngp
