import CppCore.Ngp.NavPacket
import CppCore.Utils.Buffer

/-!
# Reply packets

A reply adds a status code and a status message to the header.  `writeSpecificHeaderPart`
writes the valid bytes of the message buffer and one more NUL byte; the constructor from a byte
array reads the message up to its first NUL byte and takes what is left, without the checksum
at the end, for the param block.

## Main definitions

* `NavReplyPacket`, `NavReplyPacket.ofBuffer` — a reply and the constructor from bytes.
* `NavReplyPacket.readHeader_layout`, `NavReplyPacket.ofBuffer_layout` — what is read when the
  message is terminated.
* `NavReplyPacket.readHeader_unterminated` — otherwise a null pointer is followed.
* `NavReplyPacket.RoundTrips`, `NavReplyPacket.roundTrips_iff` — which replies survive the wire.
-/

namespace CppCore.Ngp

open Lib Utils

/-- A reply packet. -/
structure NavReplyPacket extends NavPacket where
  /-- The status of the reply. -/
  m_statusCode : UInt8
  /-- The status code as text. -/
  m_statusMessage : Buffer
  deriving DecidableEq

namespace NavReplyPacket

/-- `NavReplyPacket::NavReplyPacket( protoVer, type, reqID, reqVer )`: no status message. -/
def new (protoVer : UInt8) (type : UInt16) (reqID reqVer : UInt8) : NavReplyPacket :=
  { NavPacket.new protoVer type reqID reqVer with
    m_statusCode := 0
    m_statusMessage := Buffer.ofLength 0 }

/-- `NavReplyPacket::setStatusCode`. -/
def setStatusCode (r : NavReplyPacket) (statusCode : UInt8) : NavReplyPacket :=
  { r with m_statusCode := statusCode }

/-- `NavReplyPacket::setStatusMessage`, of the string a pointer denotes. -/
def setStatusMessage (r : NavReplyPacket) (statusMessage : Option (List UInt8)) :
    Exec NavReplyPacket := do
  let mem ← deref statusMessage
  let len ← strlen mem
  let buff ← r.m_statusMessage.reserve (int32 (len + 1))
  let str ← cstring mem
  let (_, buff) ← buff.clear.writeNextCharString (some str)
  .ok { r with m_statusMessage := buff }

/-- `NavReplyPacket::getStatusMessage`. -/
def getStatusMessage (r : NavReplyPacket) : Option (List UInt8) := r.m_statusMessage.accessRawData 0

/-- `NavReplyPacket::writeSpecificHeaderPart`. -/
def writeSpecificHeaderPart (r : NavReplyPacket) (buff : List UInt8) : Exec (List UInt8) := do
  let buff := buff ++ [r.m_statusCode]
  let n := r.m_statusMessage.getLength
  let rawStr := r.m_statusMessage.accessRawData 0
  -- an empty range may start at a null pointer
  if n = 0 then
    .ok (buff ++ [] ++ [0])
  else
    let mem ← deref rawStr
    let bytes ← slice mem 0 n
    .ok (buff ++ bytes ++ [0])

/-- `NavReplyPacket::NavReplyPacket( data, size )` up to the status message: the packet and the
buffer behind it. -/
def readHeader (data : List UInt8) (size : ℕ) : Exec (NavReplyPacket × Buffer) := do
  let buff := Buffer.nonOwning data size
  let (protoVer, buff) ← buff.readNext8bit
  let (type, buff) ← buff.readNextUnaligned16bit
  let (reqID, buff) ← buff.readNext8bit
  let (reqVer, buff) ← buff.readNext8bit
  let (statusCode, buff) ← buff.readNext8bit
  let (statusMessage, buff) ← buff.getNextCharString
  let r : NavReplyPacket :=
    { NavPacket.new protoVer type reqID reqVer with
      m_statusCode := statusCode
      m_statusMessage := Buffer.ofLength }
  let r ← r.setStatusMessage statusMessage
  .ok (r, buff)

/-- `NavReplyPacket::NavReplyPacket( data, size )`. -/
def ofBuffer (zip : GunzipUtil) (data : List UInt8) (size : ℕ) : Exec NavReplyPacket := do
  let (r, buff) ← readHeader data size
  let remaining ← buff.remaining
  let block ← NParamBlock.ofBuffer zip buff.accessRawData (sub32 remaining 4) r.m_protoVer
  .ok { r with m_params := r.m_params.assignToThis block }

/-! ## The status message -/

/-- **A status message that has been set is in the buffer with its terminator.** -/
theorem holds_of_setStatusMessage {r r' : NavReplyPacket} {mem : List UInt8} {s : CString}
    (hmem : cstring mem = .ok s) (hresize : r.m_statusMessage.m_resize = true)
    (h : r.setStatusMessage (some mem) = .ok r') :
    r'.m_statusMessage.Holds s.bytes ∧
      r' = { r with m_statusMessage := r'.m_statusMessage } := by
  simp only [setStatusMessage, deref, strlen, hmem, Exec.ok_bind, Exec.bind_eq_ok, Prod.exists,
    Buffer.writeNextCharString, Option.getD_some, Except.ok.injEq, Prod.mk.injEq] at h
  obtain ⟨b₁, hreserve, _, b₂, ⟨ok, b₂', hwrite, -, rfl⟩, rfl⟩ := h
  have hresize₁ : b₁.m_resize = true := by
    simp only [Buffer.reserve] at hreserve
    split at hreserve
    · exact Except.ok.inj hreserve ▸ hresize
    · obtain ⟨⟨_, b⟩, henlarge, hb⟩ := Exec.bind_eq_ok.mp hreserve
      have := (Buffer.enlargeData_fst henlarge).2.1
      exact Except.ok.inj hb ▸ this.trans hresize
  have hlen : s.bytes.length < 2 ^ 32 := by
    have h₁ := s.property.2
    have h₂ : maxObject < 2 ^ 31 := by decide
    rw [CString.length_bytes]
    omega
  exact ⟨Buffer.holds_of_writeNextByteArray hresize₁ hlen hwrite, rfl⟩

/-- A message can be set in a packet whose message buffer is as constructed by default. -/
theorem setStatusMessage_ok {r : NavReplyPacket} {mem : List UInt8} {s : CString}
    (hmem : cstring mem = .ok s) (hr : r.m_statusMessage = Buffer.ofLength) :
    ∃ r', r.setStatusMessage (some mem) = .ok r' := by
  have hs := s.property.2
  have hmax : maxObject = 2 ^ 31 - 1 := rfl
  have hsigned : int32 (s.val.length + 1) = (s.val.length + 1 : ℕ) := by
    rw [int32]
    split <;> omega
  have hroom : s.val.length + 1 + 3 < 2 ^ 31 + (Buffer.ofLength 4).m_dataLength := by
    rw [show (Buffer.ofLength 4).m_dataLength = 4 from rfl]
    omega
  obtain ⟨b, hreserve, hsized, hcap, hdata, -⟩ := Buffer.reserve_spec (Buffer.sized_ofLength 4) rfl
    (by decide) (by decide) hroom (by omega)
  obtain ⟨b', hwrite⟩ := Buffer.writeNextByteArray_of_fits b.clear s.bytes hsized hdata
    (by simpa [Buffer.clear] using hcap)
  refine ⟨{ r with m_statusMessage := b' }, ?_⟩
  simp only [setStatusMessage, deref, strlen, hmem, Exec.ok_bind, hr, hsigned, hreserve,
    Buffer.writeNextCharString, Option.getD_some, hwrite]

/-! ## Reading a reply -/

/-- The fields every packet has are read one after the other; the status follows. -/
private theorem readHeader_fields (pv t₁ t₀ id rv : UInt8) (tail : List UInt8)
    (hbound : tail.length + 5 < 2 ^ 32) :
    readHeader ([pv, t₁, t₀, id, rv] ++ tail) ([pv, t₁, t₀, id, rv] ++ tail).length =
      (do
        let (statusCode, buff) ← (Buffer.window [pv, t₁, t₀, id, rv] tail).readNext8bit
        let (statusMessage, buff) ← buff.getNextCharString
        let r : NavReplyPacket :=
          { NavPacket.new pv (ofBE16 t₁ t₀) id rv with
            m_statusCode := statusCode
            m_statusMessage := Buffer.ofLength }
        let r ← r.setStatusMessage statusMessage
        .ok (r, buff)) := by
  have hread₁ := Buffer.readNext8bit_window [] pv (t₁ :: t₀ :: id :: rv :: tail) (by
      simp only [List.length_cons, List.length_nil]
      omega)
  have hread₂ := Buffer.readNextUnaligned16bit_window [pv] t₁ t₀ (id :: rv :: tail) (by
      simp only [List.length_cons, List.length_nil]
      omega)
  have hread₃ := Buffer.readNext8bit_window [pv, t₁, t₀] id (rv :: tail) (by
      simp only [List.length_cons, List.length_nil]
      omega)
  have hread₄ := Buffer.readNext8bit_window [pv, t₁, t₀, id] rv tail (by
      simp only [List.length_cons, List.length_nil]
      omega)
  simp only [readHeader, Buffer.nonOwning_eq_window, hread₁, Exec.ok_bind, List.nil_append,
    hread₂, List.cons_append, hread₃, hread₄]

/-- **A header with a terminated message is read field by field**, up to the terminator. -/
theorem readHeader_layout (pv t₁ t₀ id rv sc : UInt8) (s : CString) (rest : List UInt8)
    (hbound : s.bytes.length + rest.length + 6 < 2 ^ 32) :
    ∃ sm : Buffer, sm.Holds s.bytes ∧
      readHeader ([pv, t₁, t₀, id, rv, sc] ++ s.bytes ++ rest)
          ([pv, t₁, t₀, id, rv, sc] ++ s.bytes ++ rest).length =
        .ok (⟨NavPacket.new pv (ofBE16 t₁ t₀) id rv, sc, sm⟩,
          Buffer.window ([pv, t₁, t₀, id, rv, sc] ++ s.bytes) rest) := by
  have hstring := cstring_bytes_append s rest
  obtain ⟨r, hr⟩ := setStatusMessage_ok (r := { NavPacket.new pv (ofBE16 t₁ t₀) id rv with
    m_statusCode := sc
    m_statusMessage := Buffer.ofLength }) hstring rfl
  obtain ⟨hholds, hfields⟩ := holds_of_setStatusMessage hstring rfl hr
  have hlen : (sc :: (s.bytes ++ rest)).length + 5 < 2 ^ 32 := by
    simp only [List.length_cons, List.length_append]
    omega
  have hdata : [pv, t₁, t₀, id, rv, sc] ++ s.bytes ++ rest =
      [pv, t₁, t₀, id, rv] ++ sc :: (s.bytes ++ rest) := by simp
  have hread := Buffer.readNext8bit_window [pv, t₁, t₀, id, rv] sc (s.bytes ++ rest) (by
    simp only [List.length_cons, List.length_nil] at hlen ⊢
    omega)
  have hstr := Buffer.getNextCharString_window [pv, t₁, t₀, id, rv, sc] s rest
  refine ⟨r.m_statusMessage, hholds, ?_⟩
  rw [hdata, readHeader_fields pv t₁ t₀ id rv _ hlen]
  simp only [hread, List.cons_append, List.nil_append, Exec.ok_bind] at hstr ⊢
  simp only [hstr, Exec.ok_bind, hr]
  rw [hfields]

/-- **Behind a terminated message** stand the params and, in the last four bytes, the checksum. -/
theorem ofBuffer_layout (zip : GunzipUtil) (pv t₁ t₀ id rv sc : UInt8) (s : CString)
    (rest : List UInt8) (hbound : s.bytes.length + rest.length + 6 < 2 ^ 31) :
    ∃ sm : Buffer, sm.Holds s.bytes ∧
      ofBuffer zip ([pv, t₁, t₀, id, rv, sc] ++ s.bytes ++ rest)
          ([pv, t₁, t₀, id, rv, sc] ++ s.bytes ++ rest).length =
        (do
          let block ← NParamBlock.ofBuffer zip (if rest = [] then none else some rest)
            (sub32 rest.length 4) pv
          .ok ⟨⟨pv, ofBE16 t₁ t₀, id, rv, ⟨block.m_params, block.m_valid, 0⟩⟩, sc, sm⟩) := by
  obtain ⟨sm, hholds, hread⟩ := readHeader_layout pv t₁ t₀ id rv sc s rest (by omega)
  have hremaining := Buffer.remaining_window ([pv, t₁, t₀, id, rv, sc] ++ s.bytes) rest (by
      simp only [List.length_append, List.length_cons, List.length_nil]
      omega)
  refine ⟨sm, hholds, ?_⟩
  simp only [ofBuffer, hread, Exec.ok_bind, hremaining, Buffer.accessRawData_window,
    NParamBlock.assignToThis_eq]
  rfl

/-- **Without a terminator behind the status code the null pointer is followed.** -/
theorem readHeader_unterminated (pv t₁ t₀ id rv : UInt8) (tail : List UInt8)
    (hnul : (0 : UInt8) ∉ tail.drop 1) (hbound : tail.length + 5 < 2 ^ 32) :
    readHeader ([pv, t₁, t₀, id, rv] ++ tail) ([pv, t₁, t₀, id, rv] ++ tail).length =
      .error .nullPointer := by
  have hstatus : ∃ sc pre post, (0 : UInt8) ∉ post ∧
      (Buffer.window [pv, t₁, t₀, id, rv] tail).readNext8bit =
        .ok (sc, Buffer.window pre post) := by
    cases tail with
    | nil => exact ⟨0, _, [], by simp, Buffer.readNext8bit_window_nil (by simp)⟩
    | cons sc rest =>
      exact ⟨sc, _, rest, hnul, Buffer.readNext8bit_window _ _ _ (by
        simp only [List.length_cons, List.length_nil] at hbound ⊢
        omega)⟩
  obtain ⟨sc, pre, post, hpost, hread⟩ := hstatus
  rw [readHeader_fields pv t₁ t₀ id rv tail hbound]
  simp only [hread, Exec.ok_bind, Buffer.getNextCharString_window_none hpost, setStatusMessage,
    deref, Exec.error_bind]

/-! ## Over the wire -/

/-- A reply as a server builds it: constructed, given a status code, perhaps a status message,
and params. -/
def build (protoVer : UInt8) (type : UInt16) (reqID reqVer statusCode : UInt8)
    (statusMessage : Option CString) (params : NParams) : Exec NavReplyPacket := do
  let r := (new protoVer type reqID reqVer).setStatusCode statusCode
  let r ←
    match statusMessage with
    | none => .ok r
    | some s => r.setStatusMessage (some s.bytes)
  .ok { r with m_params := { r.m_params with m_params := params } }

/-- Reading a reply off the wire: without the marker and the length, and decrypted from offset 5
on, as the packet factory does it. -/
def receive (zip : GunzipUtil) (out : List UInt8) : Exec NavReplyPacket := do
  let stripped := out.drop 5
  let data ← wf_ngp_encrypt stripped 5 (sub32 stripped.length 5)
  ofBuffer zip data data.length

/-- The reply that is read off the wire is the one that was written: the same header, the same
status message, where an unset one is read as the empty string, and a valid block of the same
params in the same order. -/
def RoundTrips (zip : GunzipUtil) (protoVer : UInt8) (type : UInt16)
    (reqID reqVer statusCode : UInt8) (statusMessage : Option CString) (params : NParams) : Prop :=
  ∃ r out r', build protoVer type reqID reqVer statusCode statusMessage params = .ok r ∧
    r.writeTo zip r.writeSpecificHeaderPart [] = .ok out ∧
    receive zip out = .ok r' ∧
    r'.m_protoVer = protoVer ∧ r'.m_type = type ∧ r'.m_reqID = reqID ∧ r'.m_reqVer = reqVer ∧
    r'.m_statusCode = statusCode ∧
    (∃ mem, r'.getStatusMessage = some mem ∧
      cstring mem = .ok (statusMessage.getD CString.empty)) ∧
    r'.m_params.getValid = true ∧ r'.m_params.m_params.toList = params.toList

/-- The header part a reply writes: the code, the message if there is one, and a NUL byte. -/
def statusPart (statusCode : UInt8) (statusMessage : Option CString) : List UInt8 :=
  [statusCode] ++ (statusMessage.elim [] CString.bytes) ++ [0]

/-- What a reply that has been built writes into its header. -/
theorem writeSpecificHeaderPart_of_build {protoVer : UInt8} {type : UInt16}
    {reqID reqVer statusCode : UInt8} {statusMessage : Option CString} {params : NParams}
    {r : NavReplyPacket}
    (h : build protoVer type reqID reqVer statusCode statusMessage params = .ok r) :
    r.toNavPacket = ⟨protoVer, type, reqID, reqVer, ⟨params, true, 0⟩⟩ ∧
      r.writeSpecificHeaderPart = NavPacket.appends (statusPart statusCode statusMessage) := by
  cases statusMessage with
  | none =>
    simp only [build, Exec.ok_bind] at h
    obtain rfl := Except.ok.inj h
    refine ⟨rfl, ?_⟩
    funext buff
    have hunset : (Buffer.ofLength 0).getLength = 0 := rfl
    simp [writeSpecificHeaderPart, setStatusCode, new, hunset, NavPacket.appends, statusPart]
  | some s =>
    simp only [build, Exec.bind_eq_ok] at h
    obtain ⟨r₁, hset, h⟩ := h
    have hstring : cstring s.bytes = .ok s := by simpa using cstring_bytes_append s []
    obtain ⟨hholds, hfields⟩ := holds_of_setStatusMessage hstring rfl hset
    obtain rfl := Except.ok.inj h
    obtain ⟨rest, hraw⟩ := hholds.accessRawData (by simp [CString.bytes])
    have hlength : r₁.m_statusMessage.getLength = s.bytes.length := hholds.1
    have hcode : r₁.m_statusCode = statusCode := by rw [hfields]; rfl
    refine ⟨by rw [hfields]; rfl, ?_⟩
    funext buff
    have hslice : slice (s.bytes ++ rest) 0 s.bytes.length = .ok s.bytes :=
      slice_eq_ok.mpr ⟨by simp, by simp⟩
    simp only [writeSpecificHeaderPart, hlength, hraw, deref, Exec.ok_bind, hslice, hcode]
    rw [if_neg (by simp)]
    simp [NavPacket.appends, statusPart]

/-- Reading an encoding off the wire is reading its plain bytes behind the length. -/
theorem receive_wire (zip : GunzipUtil) (p : NavPacket) (header : List UInt8)
    (params : NParamBlock) (hbound : (p.wire zip header params).length ≤ vectorMaxSize) :
    receive zip (p.wire zip header params) =
      ofBuffer zip
        (p.clearHeader ++ (p.body zip header params ++ be32 (p.checksum zip header params)))
        (p.clearHeader ++ (p.body zip header params ++ be32 (p.checksum zip header params))).length
      := by
  have hmax : vectorMaxSize = 2 ^ 31 - 1 := rfl
  have hcrypt := wf_ngp_encrypt_append p.clearHeader
    (keyed (p.body zip header params ++ be32 (p.checksum zip header params)))
  have hsize : sub32 (p.clearHeader ++ keyed (p.body zip header params ++
      be32 (p.checksum zip header params))).length 5 =
      (keyed (p.body zip header params ++ be32 (p.checksum zip header params))).length := by
    rw [NavPacket.length_wire] at hbound
    simp only [List.length_append, NavPacket.length_clearHeader, length_keyed, length_be32]
    rw [sub32_of_le (by omega) (by omega)]
    omega
  rw [receive, NavPacket.drop_wire, hsize]
  simp only [NavPacket.length_clearHeader, keyed_keyed] at hcrypt
  rw [hcrypt, Exec.ok_bind]

/-- The byte a message that has been set leaves between itself and the params. -/
def leftover (statusMessage : Option CString) : List UInt8 := statusMessage.elim [] fun _ => [0]

/-- **A reply read off the wire** has the header that was written; its params are parsed from
the byte left over by the status message, if there is one, and the encoding of the block. -/
theorem receive_reply (zip : GunzipUtil) (protoVer : UInt8) (type : UInt16)
    (reqID reqVer statusCode : UInt8) (statusMessage : Option CString) (b : NParamBlock)
    {p : NavPacket} (hp : p = ⟨protoVer, type, reqID, reqVer, b⟩)
    (hbound : (p.wire zip (statusPart statusCode statusMessage) b).length ≤ vectorMaxSize) :
    ∃ sm : Buffer, ∃ crc : List UInt8, sm.Holds (statusMessage.getD CString.empty).bytes ∧
      receive zip (p.wire zip (statusPart statusCode statusMessage) b) =
        (do
          let block ← NParamBlock.ofBuffer zip
            (some (leftover statusMessage ++ b.encoding zip protoVer ++ crc))
            (leftover statusMessage ++ b.encoding zip protoVer).length protoVer
          .ok ⟨⟨protoVer, type, reqID, reqVer, ⟨block.m_params, block.m_valid, 0⟩⟩, statusCode,
            sm⟩) := by
  set header := statusPart statusCode statusMessage with hheader
  set crc := p.checksum zip header b
  set rest := leftover statusMessage ++ b.encoding zip protoVer ++ be32 crc with hrest
  have hmax : vectorMaxSize = 2 ^ 31 - 1 := rfl
  have hbody : p.clearHeader ++ (p.body zip header b ++ be32 crc) =
      [protoVer, (type >>> 8).toUInt8, type.toUInt8, reqID, reqVer, statusCode] ++
        (statusMessage.getD CString.empty).bytes ++ rest := by
    cases statusMessage <;>
      simp [hheader, hrest, hp, NavPacket.clearHeader, NavPacket.body, statusPart, leftover, be16]
  have hsize : (statusMessage.getD CString.empty).bytes.length + rest.length + 6 < 2 ^ 31 := by
    have hlen := congrArg List.length hbody
    rw [NavPacket.length_wire] at hbound
    simp only [List.length_append, NavPacket.length_clearHeader, length_be32,
      List.length_cons, List.length_nil] at hlen ⊢
    omega
  obtain ⟨sm, hsm, hlayout⟩ := ofBuffer_layout zip protoVer (type >>> 8).toUInt8 type.toUInt8 reqID
    reqVer statusCode (statusMessage.getD CString.empty) rest hsize
  have hne : rest ≠ [] := by simp [hrest, be32]
  have hlength : sub32 rest.length 4 =
      (leftover statusMessage ++ b.encoding zip protoVer).length := by
    rw [hrest, List.length_append, length_be32, sub32_of_le (by omega) _]
    · omega
    · simp only [hrest, List.length_append, length_be32] at hsize
      simp only [List.length_append]
      omega
  refine ⟨sm, be32 crc, hsm, ?_⟩
  rw [receive_wire zip p header b hbound, hbody, hlayout, if_neg hne, hlength, ofBE16_be16]

/-- Writing a reply that has been built: its encoding, if that fits into a vector. -/
theorem writeTo_of_build (zip : GunzipUtil) {protoVer : UInt8} {type : UInt16}
    {reqID reqVer statusCode : UInt8} {statusMessage : Option CString} {params : NParams}
    {b : NParamBlock} {p : NavPacket} (hb : b = ⟨params, true, 0⟩)
    (hp : p = ⟨protoVer, type, reqID, reqVer, b⟩) {r : NavReplyPacket}
    (h : build protoVer type reqID reqVer statusCode statusMessage params = .ok r) :
    r.writeTo zip r.writeSpecificHeaderPart [] =
      if vectorMaxSize < (p.wire zip (statusPart statusCode statusMessage) b).length then
        .error .lengthError
      else .ok (p.wire zip (statusPart statusCode statusMessage) b) := by
  obtain ⟨hpacket, hpart⟩ := writeSpecificHeaderPart_of_build h
  rw [hpart, hpacket, hp, hb]
  exact NavPacket.writeToInternal_eq zip _ _ _

/-- The bytes of a reply besides the block: 14, the status code, and the message with its
terminators. -/
private theorem length_wire_statusPart (zip : GunzipUtil) (p : NavPacket) (b : NParamBlock)
    (statusCode : UInt8) (statusMessage : Option CString) :
    (p.wire zip (statusPart statusCode statusMessage) b).length =
      (statusPart statusCode statusMessage).length + (b.encoding zip p.m_protoVer).length + 14 := by
  rw [NavPacket.length_wire, NavPacket.body, List.length_append]

/-- What is known of a reply that survives the wire: its encoding fits, and the params were read
from behind the byte left over by the status message. -/
private theorem parsed_of_roundTrips {zip : GunzipUtil} {protoVer : UInt8} {type : UInt16}
    {reqID reqVer statusCode : UInt8} {statusMessage : Option CString} {params : NParams}
    {b : NParamBlock} (hb : b = ⟨params, true, 0⟩)
    (h : RoundTrips zip protoVer type reqID reqVer statusCode statusMessage params) :
    (statusPart statusCode statusMessage).length + (b.encoding zip protoVer).length + 14 ≤
        vectorMaxSize ∧
      ∃ crc parsed, NParamBlock.ofBuffer zip
          (some (leftover statusMessage ++ b.encoding zip protoVer ++ crc))
          (leftover statusMessage ++ b.encoding zip protoVer).length protoVer = .ok parsed ∧
        parsed.m_valid = true ∧ parsed.m_params.toList = params.toList := by
  obtain ⟨r, out, r', hr, hout, hreceive, -, -, -, -, -, -, hvalid, hparams⟩ := h
  rw [writeTo_of_build zip hb rfl hr] at hout
  split at hout
  · cases hout
  · rename_i hle
    obtain rfl := Except.ok.inj hout
    obtain ⟨sm, crc, -, hreply⟩ := receive_reply zip protoVer type reqID reqVer statusCode
      statusMessage b rfl (not_lt.mp hle)
    rw [hreply, Exec.bind_eq_ok] at hreceive
    obtain ⟨parsed, hparsed, hr'⟩ := hreceive
    obtain rfl := Except.ok.inj hr'
    rw [length_wire_statusPart] at hle
    exact ⟨not_lt.mp hle, crc, parsed, hparsed, hvalid, hparams⟩

/-- **No reply with a status message survives**: the second NUL byte is taken for the start of
the params. -/
theorem not_roundTrips_some (zip : GunzipUtil) (protoVer : UInt8) (type : UInt16)
    (reqID reqVer statusCode : UInt8) (s : CString) (params : NParams) :
    ¬RoundTrips zip protoVer type reqID reqVer statusCode (some s) params := by
  intro h
  obtain ⟨hle, crc, parsed, hparsed, hvalid, hparams⟩ := parsed_of_roundTrips rfl h
  set b : NParamBlock := ⟨params, true, 0⟩ with hb
  have hmax : vectorMaxSize = 2 ^ 31 - 1 := rfl
  obtain ⟨parsed', hparsed', hbad⟩ := NParamBlock.ofBuffer_nul_encoding zip b protoVer
    (leftover (some s) ++ b.encoding zip protoVer ++ crc) (List.prefix_append _ _) (by omega)
  have hcons : (leftover (some s) ++ b.encoding zip protoVer).length =
      (b.encoding zip protoVer).length + 1 := List.length_cons
  rw [hcons, hparsed'] at hparsed
  obtain rfl := Except.ok.inj hparsed
  exact hbad ⟨hvalid, hparams⟩

/-- A reply without status message survives when its encoding fits into a vector. -/
theorem roundTrips_none (zip : GunzipUtil) (protoVer : UInt8) (type : UInt16)
    (reqID reqVer statusCode : UInt8) (params : NParams)
    (hfits : ∀ p ∈ params.toList, p.m_buff.length ≤ 65535)
    (hsize : ((⟨params, true, 0⟩ : NParamBlock).encoding zip protoVer).length + 16 ≤
      vectorMaxSize) :
    RoundTrips zip protoVer type reqID reqVer statusCode none params := by
  set b : NParamBlock := ⟨params, true, 0⟩ with hb
  set p : NavPacket := ⟨protoVer, type, reqID, reqVer, b⟩ with hp
  have hmax : vectorMaxSize = 2 ^ 31 - 1 := rfl
  have hbuild : build protoVer type reqID reqVer statusCode none params = .ok _ := rfl
  have hbound : (p.wire zip (statusPart statusCode none) b).length ≤ vectorMaxSize := by
    rw [length_wire_statusPart, show (statusPart statusCode none).length = 2 from rfl]
    simp only [hp]
    omega
  obtain ⟨sm, crc, hsm, hreply⟩ := receive_reply zip protoVer type reqID reqVer statusCode
    none b hp hbound
  have hblock := NParamBlock.ofBuffer_encoding zip b protoVer hfits
    (leftover none ++ b.encoding zip protoVer ++ crc) (List.prefix_append _ _) (by omega)
  have hnil : (leftover none ++ b.encoding zip protoVer).length =
      (b.encoding zip protoVer).length := rfl
  rw [hnil, hblock, Exec.ok_bind] at hreply
  obtain ⟨rest, hraw⟩ := hsm.accessRawData (by simp [CString.bytes])
  refine ⟨_, _, _, hbuild, ?_, hreply, rfl, rfl, rfl, rfl, rfl, ⟨_, hraw, ?_⟩, rfl, rfl⟩
  · rw [writeTo_of_build zip hb hp hbuild, if_neg (not_lt.mpr hbound)]
  · exact cstring_bytes_append _ rest

/-- **Which replies survive the wire.**  A reply is read as it was written exactly when its status
message has not been set and its encoding fits into a vector: a message that has been set, even
the empty one, is followed by a second NUL byte, which is taken for the start of the params. -/
theorem roundTrips_iff (zip : GunzipUtil) (protoVer : UInt8) (type : UInt16)
    (reqID reqVer statusCode : UInt8) (statusMessage : Option CString) (params : NParams)
    (hfits : ∀ p ∈ params.toList, p.m_buff.length ≤ 65535) :
    RoundTrips zip protoVer type reqID reqVer statusCode statusMessage params ↔
      statusMessage = none ∧
        (if 0xc ≤ protoVer then 4 else 0) +
          (params.toList.map fun p => p.m_buff.length + 4).sum + 16 ≤ vectorMaxSize := by
  rw [← NParamBlock.length_encoding zip ⟨params, true, 0⟩ protoVer]
  cases statusMessage with
  | none =>
    constructor
    · intro h
      obtain ⟨hle, -⟩ := parsed_of_roundTrips rfl h
      rw [show (statusPart statusCode none).length = 2 from rfl] at hle
      exact ⟨rfl, by omega⟩
    · intro h
      exact roundTrips_none zip protoVer type reqID reqVer statusCode params hfits h.2
  | some s =>
    constructor
    · intro h
      exact absurd h (not_roundTrips_some zip protoVer type reqID reqVer statusCode s params)
    · intro h
      exact absurd h.1 (by simp)

/-- A reply without status message and with two params survives, at version `0xc`. -/
theorem roundTrips_iff_unset :
    RoundTrips GunzipUtil.stub 0xc 0x15 7 1 0 none
      (OrderedMultiset.empty.insertAll [⟨1, [104, 105, 0]⟩, ⟨2, []⟩]) :=
  (roundTrips_iff GunzipUtil.stub 0xc 0x15 7 1 0 none
    (OrderedMultiset.empty.insertAll [⟨1, [104, 105, 0]⟩, ⟨2, []⟩]) (by decide)).mpr
    ⟨rfl, by decide⟩

/-- The empty message, once set, makes the param block of an otherwise empty reply invalid. -/
theorem not_roundTrips_empty_message :
    ¬RoundTrips GunzipUtil.stub 0xb 0x15 7 1 0 (some CString.empty) OrderedMultiset.empty := by
  rintro ⟨r, out, r', hr, hout, hreceive, -, -, -, -, -, -, hvalid, -⟩
  have hrun : (do
      let r ← build 0xb 0x15 7 1 0 (some CString.empty) OrderedMultiset.empty
      let out ← r.writeTo GunzipUtil.stub r.writeSpecificHeaderPart []
      let r' ← receive GunzipUtil.stub out
      .ok r'.m_params.getValid) = (.ok false : Exec Bool) := by decide +kernel
  rw [hr, Exec.ok_bind, hout, Exec.ok_bind, hreceive, Exec.ok_bind] at hrun
  exact Bool.noConfusion ((Except.ok.inj hrun).symm.trans hvalid)

end NavReplyPacket

end CppCore.Ngp
