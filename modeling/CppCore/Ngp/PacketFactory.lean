import CppCore.Ngp.NavReplyPacket

/-!
# The packet factory

The two functions every received packet goes through: `checkSTXAndSetPacketLength` looks at the
five bytes in front of a packet, `createReplyPacketFromBuffer` makes a reply of the bytes behind
them.  Neither checks the checksum.

Which packet types have a class is generated from the protocol description; `supported` stands
for it.  What the generated classes read from the params is not part of the factory.

## Main definitions

* `checkSTXAndSetPacketLength`, `createReplyPacketFromBuffer` — the two functions.
* `decrypted` — a payload after decryption.
* `ReceiveSafe` — receiving a payload is defined, wraps no length and accepts no malformed one.
* `receiveSafe_iff` — exactly which headers and payloads are received safely.
-/

namespace CppCore.Ngp

open Lib Utils

/-- `HEADER_LENGTH`. -/
def HEADER_LENGTH : ℕ := 5

/-- `STXStatus`. -/
inductive STXStatus
  /-- The start of a packet. -/
  | STX_VALID
  /-- Too few bytes. -/
  | STX_INVALID_SHORT_HEADER
  /-- Not the start of a packet. -/
  | STX_INVALID_BAD_VALUE
  deriving DecidableEq, Repr

/-- `checkSTXAndSetPacketLength`: the status and the new value of `packLen`. -/
def checkSTXAndSetPacketLength (data : List UInt8) (size packLen : ℕ) : Exec (STXStatus × ℕ) := do
  if size < HEADER_LENGTH then
    .ok (.STX_INVALID_SHORT_HEADER, packLen)
  else
    let buff := Buffer.nonOwning data size
    let (stx, buff) ← buff.readNext8bit
    if stx = 0x02 then
      let (length, _) ← buff.readNextUnaligned32bit
      .ok (.STX_VALID, sub32 length.toNat HEADER_LENGTH)
    else
      .ok (.STX_INVALID_BAD_VALUE, 0)

/-- `createReplyPacketFromBuffer`; `none` is the null pointer. -/
def createReplyPacketFromBuffer (zip : GunzipUtil) (supported : UInt16 → Bool)
    (data : List UInt8) (size : ℕ) : Exec (Option NavReplyPacket) := do
  let data ← wf_ngp_encrypt data 5 (sub32 size 5)
  let buff := Buffer.nonOwning data size
  let (_, buff) ← buff.readNext8bit
  let (type, _) ← buff.readNextUnaligned16bit
  if supported type then
    let packet ← NavReplyPacket.ofBuffer zip data size
    .ok (some packet)
  else
    .ok none

/-! ## The header of a packet -/

/-- **Five bytes are a header when the first is `0x02`**; the length announced in the others
counts them too, and they are taken off. -/
theorem checkSTXAndSetPacketLength_eq (stx a b c d : UInt8) (packLen : ℕ) :
    checkSTXAndSetPacketLength [stx, a, b, c, d] 5 packLen =
      if stx = 0x02 then .ok (.STX_VALID, sub32 (ofBE32 a b c d).toNat HEADER_LENGTH)
      else .ok (.STX_INVALID_BAD_VALUE, 0) := by
  have hread₁ := Buffer.readNext8bit_window [] stx [a, b, c, d] (by simp)
  have hread₂ := Buffer.readNextUnaligned32bit_window [stx] a b c d [] (by simp)
  have hwindow : Buffer.nonOwning [stx, a, b, c, d] 5 = Buffer.window [] [stx, a, b, c, d] := rfl
  simp only [checkSTXAndSetPacketLength, hwindow, hread₁, List.nil_append, hread₂, Exec.ok_bind]
  rfl

/-- Five bytes are looked at without leaving them. -/
theorem exists_checkSTXAndSetPacketLength {header : List UInt8}
    (h : header.length = HEADER_LENGTH) (packLen : ℕ) :
    ∃ res, checkSTXAndSetPacketLength header header.length packLen = .ok res := by
  match header, h with
  | [stx, a, b, c, d], _ =>
    simp only [List.length_cons, List.length_nil, Nat.reduceAdd, checkSTXAndSetPacketLength_eq]
    by_cases hstx : stx = 0x02
    · exact ⟨_, if_pos hstx⟩
    · exact ⟨_, if_neg hstx⟩

/-! ## The payload of a packet -/

/-- A payload after decryption. -/
def decrypted (payload : List UInt8) : List UInt8 := payload.take 5 ++ keyed (payload.drop 5)

/-- The packet type in a payload. -/
def packetType (payload : List UInt8) : UInt16 := ofBE16 (payload.getD 1 0) (payload.getD 2 0)

@[simp] theorem length_decrypted (payload : List UInt8) :
    (decrypted payload).length = payload.length := by
  rw [decrypted, List.length_append, length_keyed, ← List.length_append, List.take_append_drop]

/-- A payload that is long enough to be decrypted. -/
theorem decrypted_eq_cons {payload : List UInt8} (h : 5 ≤ payload.length) :
    ∃ pv t₁ t₀ id rv tail, decrypted payload = [pv, t₁, t₀, id, rv] ++ tail ∧
      payload.head? = some pv ∧ packetType payload = ofBE16 t₁ t₀ := by
  match payload, h with
  | pv :: t₁ :: t₀ :: id :: rv :: tail, _ => exact ⟨pv, t₁, t₀, id, rv, keyed tail, rfl, rfl, rfl⟩

/-- The factory decrypts a payload and finds the type behind the protocol version. -/
theorem exists_readType {payload : List UInt8} (hlen : HEADER_LENGTH ≤ payload.length)
    (hsize : payload.length < 2 ^ 32) : ∃ protVer b₁ b₂,
      wf_ngp_encrypt payload 5 (sub32 payload.length 5) = .ok (decrypted payload) ∧
        (Buffer.nonOwning (decrypted payload) payload.length).readNext8bit = .ok (protVer, b₁) ∧
        b₁.readNextUnaligned16bit = .ok (packetType payload, b₂) := by
  have hcrypt := (wf_ngp_encrypt_eq_ok hsize (by decide : 5 ≤ 2 ^ 31)).mpr ⟨hlen, rfl⟩
  obtain ⟨pv, t₁, t₀, id, rv, tail, hdata, -, htype⟩ := decrypted_eq_cons hlen
  have hbound : tail.length + 5 < 2 ^ 32 := by
    have hlength := congrArg List.length hdata
    simp only [length_decrypted, List.length_append, List.length_cons, List.length_nil] at hlength
    omega
  have hbuff : Buffer.nonOwning (decrypted payload) payload.length =
      Buffer.window [] (pv :: t₁ :: t₀ :: id :: rv :: tail) := by
    rw [← length_decrypted, hdata]
    rfl
  rw [hbuff, htype]
  refine ⟨pv, _, _, hcrypt, Buffer.readNext8bit_window [] pv _ ?_,
    Buffer.readNextUnaligned16bit_window [pv] t₁ t₀ _ ?_⟩ <;>
  · simp only [List.length_cons, List.length_nil]
    omega

/-- **The factory on a payload**: its type decides whether the constructor is run on the
decrypted bytes. -/
theorem createReplyPacketFromBuffer_eq (zip : GunzipUtil) (supported : UInt16 → Bool)
    {payload : List UInt8} (hlen : HEADER_LENGTH ≤ payload.length)
    (hsize : payload.length < 2 ^ 32) :
    createReplyPacketFromBuffer zip supported payload payload.length =
      if supported (packetType payload) then
        NavReplyPacket.ofBuffer zip (decrypted payload) (decrypted payload).length >>= fun r =>
          .ok (some r)
      else .ok none := by
  obtain ⟨pv, b₁, b₂, hcrypt, hread₁, hread₂⟩ := exists_readType hlen hsize
  simp only [createReplyPacketFromBuffer, hcrypt, Exec.ok_bind, hread₁, hread₂, length_decrypted]

/-! ## Safety on hostile bytes -/

/-- The length announced in a header. -/
def announcedLength (header : List UInt8) : ℕ :=
  (ofBE32 (header.getD 1 0) (header.getD 2 0) (header.getD 3 0) (header.getD 4 0)).toNat

/-- The layout of a reply behind marker and length: six bytes of header, a terminated status
message, complete records and a checksum. -/
def WellFormed (data : List UInt8) : Prop :=
  ∃ header s rs crc, header.length = 6 ∧ (∀ r ∈ rs, Record.Fits r) ∧ crc.length = 4 ∧
    data = header ++ CString.bytes s ++ encodeRecords rs ++ crc

/-- Receiving a header and a payload follows no null pointer, reads no byte outside of them,
wraps no length and takes no malformed payload for a valid one. -/
structure ReceiveSafe (zip : GunzipUtil) (supported : UInt16 → Bool)
    (header payload : List UInt8) : Prop where
  /-- The header can be looked at. -/
  stx : ∀ packLen, ∃ res, checkSTXAndSetPacketLength header header.length packLen = .ok res
  /-- Taking the header off the announced length does not wrap. -/
  announced : header.head? = some 0x02 → HEADER_LENGTH ≤ announcedLength header
  /-- Taking the bytes in clear off the size does not wrap. -/
  clear : HEADER_LENGTH ≤ payload.length
  /-- The factory and the constructor touch nothing they must not. -/
  defined : ∃ packet, createReplyPacketFromBuffer zip supported payload payload.length = .ok packet
  /-- Taking the checksum off the remaining bytes does not wrap. -/
  checksum : supported (packetType payload) = true → ∀ r buff n,
    NavReplyPacket.readHeader (decrypted payload) payload.length = .ok (r, buff) →
      buff.remaining = .ok n → 4 ≤ n
  /-- A valid block comes from a payload of the right layout. -/
  accepted : ∀ r, createReplyPacketFromBuffer zip supported payload payload.length = .ok (some r) →
    r.m_params.getValid = true → WellFormed (decrypted payload)

/-- A NUL byte behind the status code ends a status message, there or before. -/
private theorem exists_layout {data : List UInt8} {e : ℕ} (he : 6 ≤ e) (hzero : data[e]? = some 0)
    (hobject : data.length ≤ maxObject) :
    ∃ pv t₁ t₀ id rv sc, ∃ s : CString, ∃ rest,
      data = [pv, t₁, t₀, id, rv, sc] ++ s.bytes ++ rest ∧ 6 + s.val.length ≤ e := by
  match data, hzero with
  | pv :: t₁ :: t₀ :: id :: rv :: sc :: tail, hzero =>
    obtain ⟨k, rfl⟩ := Nat.exists_eq_add_of_le' he
    have hzero : tail[k]? = some 0 := hzero
    obtain ⟨s, rest, htail⟩ := exists_bytes_prefix (List.mem_of_getElem? hzero) (by
      simp only [List.length_cons] at hobject
      omega)
    rw [← htail] at hzero
    have hle := CString.length_le_of_getElem?_eq_zero rest hzero
    exact ⟨pv, t₁, t₀, id, rv, sc, s, rest, by rw [← htail]; simp, by omega⟩
  | [], h | [_], h | [_, _], h | [_, _, _], h | [_, _, _, _], h | [_, _, _, _, _], h =>
    rw [List.getElem?_eq_none (by simp only [List.length_cons, List.length_nil]; omega)] at h
    cases h

/-- The bytes of a reply up to the records: the fields, the message and its terminator. -/
private theorem length_layout (pv t₁ t₀ id rv sc : UInt8) (s : CString) (rest : List UInt8) :
    ([pv, t₁, t₀, id, rv, sc] ++ s.bytes ++ rest).length = 6 + s.val.length + 1 + rest.length := by
  simp only [List.length_append, List.length_cons, List.length_nil, CString.length_bytes]
  omega

/-- Once the header is read, what stands behind the status message remains. -/
private theorem readHeader_remaining (pv t₁ t₀ id rv sc : UInt8) (s : CString)
    (rest : List UInt8)
    (hbound : ([pv, t₁, t₀, id, rv, sc] ++ s.bytes ++ rest).length < 2 ^ 31) :
    ∃ r buff, NavReplyPacket.readHeader ([pv, t₁, t₀, id, rv, sc] ++ s.bytes ++ rest)
        ([pv, t₁, t₀, id, rv, sc] ++ s.bytes ++ rest).length = .ok (r, buff) ∧
      buff.remaining = .ok rest.length := by
  rw [length_layout] at hbound
  obtain ⟨sm, -, hread⟩ := NavReplyPacket.readHeader_layout pv t₁ t₀ id rv sc s rest (by
    rw [CString.length_bytes]
    omega)
  refine ⟨_, _, hread, Buffer.remaining_window _ _ ?_⟩
  rw [← List.length_append, length_layout]
  exact hbound

/-- The constructor follows no null pointer only if a NUL byte stands behind the status code. -/
private theorem mem_drop_of_ofBuffer {zip : GunzipUtil} {payload : List UInt8}
    {r : NavReplyPacket} (hlen : 5 ≤ payload.length) (hsize : payload.length < 2 ^ 32)
    (h : NavReplyPacket.ofBuffer zip (decrypted payload) (decrypted payload).length = .ok r) :
    (0 : UInt8) ∈ (decrypted payload).drop 6 := by
  by_contra hnul
  rw [← length_decrypted] at hsize
  obtain ⟨pv, t₁, t₀, id, rv, tail, hdata, -, -⟩ := decrypted_eq_cons hlen
  rw [hdata] at hsize hnul h
  have hfault := NavReplyPacket.readHeader_unterminated pv t₁ t₀ id rv tail
    (by simpa using hnul) (by
      simp only [List.length_append, List.length_cons, List.length_nil] at hsize
      omega)
  rw [NavReplyPacket.ofBuffer, hfault, Exec.error_bind] at h
  cases h

/-- Complete records between the status message and the checksum make a layout. -/
private theorem wellFormed_of_parseRecords (pv t₁ t₀ id rv sc : UInt8) (s : CString)
    {rest : List UInt8} (hrest : 4 ≤ rest.length)
    (h : (parseRecords (rest.take (rest.length - 4))).2 = true) :
    WellFormed ([pv, t₁, t₀, id, rv, sc] ++ s.bytes ++ rest) := by
  have hparse : parseRecords (rest.take (rest.length - 4)) =
      ((parseRecords (rest.take (rest.length - 4))).1, true) := Prod.ext rfl h
  obtain ⟨hfits, hbytes⟩ := parseRecords_eq_true.mp hparse
  refine ⟨[pv, t₁, t₀, id, rv, sc], s, _, rest.drop (rest.length - 4), rfl, hfits, ?_, ?_⟩
  · rw [List.length_drop]
    omega
  · rw [← hbytes, List.append_assoc _ (rest.take _), List.take_append_drop]

/-- What the constructor makes of a terminated status message with at least a checksum behind
it, below version `0xc`. -/
private theorem ofBuffer_layout_old (zip : GunzipUtil) {pv : UInt8} (hver : pv < 0xc)
    (t₁ t₀ id rv sc : UInt8) (s : CString) (rest : List UInt8) (hrest : 4 ≤ rest.length)
    (hbound : s.bytes.length + rest.length + 6 < 2 ^ 31) :
    ∃ r, NavReplyPacket.ofBuffer zip ([pv, t₁, t₀, id, rv, sc] ++ s.bytes ++ rest)
        ([pv, t₁, t₀, id, rv, sc] ++ s.bytes ++ rest).length = .ok r ∧
      r.m_params.getValid = (parseRecords (rest.take (rest.length - 4))).2 := by
  obtain ⟨sm, -, hlayout⟩ :=
    NavReplyPacket.ofBuffer_layout zip pv t₁ t₀ id rv sc s rest hbound
  have hne : rest ≠ [] := by
    rintro rfl
    simp at hrest
  rw [if_neg hne, sub32_of_le hrest (by omega),
    NParamBlock.ofBuffer_old zip (by omega) (by omega) hver, Exec.ok_bind] at hlayout
  exact ⟨_, hlayout, by simp [NParamBlock.addRecords, NParamBlock.empty, NParamBlock.getValid]⟩

/-- A safe run over a supported type met a NUL byte where one has to be. -/
private theorem exists_nul_of_receiveSafe {zip : GunzipUtil} {supported : UInt16 → Bool}
    {header payload : List UInt8} (hobject : payload.length ≤ maxObject)
    (h : ReceiveSafe zip supported header payload)
    (hsupported : supported (packetType payload) = true) :
    ∃ e, 6 ≤ e ∧ e + 5 ≤ payload.length ∧ (decrypted payload)[e]? = some 0 := by
  have hmax : maxObject = 2 ^ 31 - 1 := rfl
  have hobject' : (decrypted payload).length ≤ maxObject := by rwa [length_decrypted]
  have hsize : payload.length < 2 ^ 32 := by omega
  obtain ⟨packet, hpacket⟩ := h.defined
  rw [createReplyPacketFromBuffer_eq zip supported h.clear hsize, if_pos hsupported,
    Exec.bind_eq_ok] at hpacket
  obtain ⟨r, hr, -⟩ := hpacket
  obtain ⟨k, hk⟩ := List.mem_iff_getElem?.mp (mem_drop_of_ofBuffer h.clear hsize hr)
  rw [List.getElem?_drop] at hk
  obtain ⟨pv, t₁, t₀, id, rv, sc, s, rest, hdata, -⟩ :=
    exists_layout (Nat.le_add_right 6 k) hk hobject'
  have hlen := length_layout pv t₁ t₀ id rv sc s rest
  rw [← hdata] at hlen
  obtain ⟨r, buff, hread, hremaining⟩ := readHeader_remaining pv t₁ t₀ id rv sc s rest (by
    rw [← hdata]
    omega)
  rw [← hdata, length_decrypted] at hread
  have hfour := h.checksum hsupported r buff _ hread hremaining
  rw [length_decrypted] at hlen
  refine ⟨6 + s.val.length, by omega, by omega, ?_⟩
  rw [hdata, List.append_assoc, List.getElem?_append_right (by simp)]
  simp [CString.bytes]

/-- A NUL byte where one has to be makes the run over a supported type safe. -/
private theorem receiveSafe_of_nul (zip : GunzipUtil) {supported : UInt16 → Bool}
    {header payload : List UInt8} (hheader : header.length = HEADER_LENGTH)
    (hobject : payload.length ≤ maxObject) (hver : ∀ pv ∈ payload.head?, pv < 0xc)
    (hannounced : header.head? = some 0x02 → HEADER_LENGTH ≤ announcedLength header)
    (hclear : HEADER_LENGTH ≤ payload.length) (hsupported : supported (packetType payload) = true)
    {e : ℕ} (he : 6 ≤ e) (hend : e + 5 ≤ payload.length)
    (hzero : (decrypted payload)[e]? = some 0) :
    ReceiveSafe zip supported header payload := by
  have hmax : maxObject = 2 ^ 31 - 1 := rfl
  have hobject' : (decrypted payload).length ≤ maxObject := by rwa [length_decrypted]
  have hfactory := createReplyPacketFromBuffer_eq zip supported hclear (by omega)
  obtain ⟨pv, t₁, t₀, id, rv, sc, s, rest, hdata, hfirst⟩ := exists_layout he hzero hobject'
  have hlen := length_layout pv t₁ t₀ id rv sc s rest
  rw [← hdata, length_decrypted] at hlen
  have hrest : 4 ≤ rest.length := by omega
  have hpv : pv < 0xc := by
    obtain ⟨pv', t₁', t₀', id', rv', tail, hdata', hhead, -⟩ := decrypted_eq_cons hclear
    rw [hdata] at hdata'
    exact (List.cons.inj hdata').1 ▸ hver pv' hhead
  obtain ⟨r, hr, hvalid⟩ := ofBuffer_layout_old zip hpv t₁ t₀ id rv sc s rest hrest (by
    rw [CString.length_bytes]
    omega)
  rw [← hdata] at hr
  rw [if_pos hsupported, hr, Exec.ok_bind] at hfactory
  refine ⟨exists_checkSTXAndSetPacketLength hheader, hannounced, hclear, ⟨_, hfactory⟩, ?_, ?_⟩
  · intro _ r' buff n hread hremaining
    obtain ⟨r'', buff', hread', hremaining'⟩ :=
      readHeader_remaining pv t₁ t₀ id rv sc s rest (by
        rw [← hdata, length_decrypted]
        omega)
    rw [← hdata, length_decrypted, hread] at hread'
    obtain ⟨rfl, rfl⟩ := Prod.mk.inj (Except.ok.inj hread')
    obtain rfl := Exec.unique hremaining hremaining'
    exact hrest
  · intro r' hr' hvalid'
    obtain rfl := Option.some.inj (Exec.unique hfactory hr')
    rw [hdata]
    exact wellFormed_of_parseRecords pv t₁ t₀ id rv sc s hrest (hvalid.symm.trans hvalid')

/-- **Which bytes are received safely.**  Below version `0xc` the receive path is safe exactly
when the announced length and the payload count at least the header, and a payload of a
supported type holds, behind the status code and before the checksum, a NUL byte to end the
status message. -/
theorem receiveSafe_iff (zip : GunzipUtil) (supported : UInt16 → Bool)
    {header payload : List UInt8} (hheader : header.length = HEADER_LENGTH)
    (hobject : payload.length ≤ maxObject) (hver : ∀ pv ∈ payload.head?, pv < 0xc) :
    ReceiveSafe zip supported header payload ↔
      (header.head? = some 0x02 → HEADER_LENGTH ≤ announcedLength header) ∧
        HEADER_LENGTH ≤ payload.length ∧
        (supported (packetType payload) = true →
          ∃ e, 6 ≤ e ∧ e + 5 ≤ payload.length ∧ (decrypted payload)[e]? = some 0) := by
  have hmax : maxObject = 2 ^ 31 - 1 := rfl
  constructor
  · intro h
    exact ⟨h.announced, h.clear, exists_nul_of_receiveSafe hobject h⟩
  · intro h
    obtain ⟨hannounced, hclear, hnul⟩ := h
    by_cases hsupported : supported (packetType payload) = true
    · obtain ⟨e, he, hend, hzero⟩ := hnul hsupported
      exact receiveSafe_of_nul zip hheader hobject hver hannounced hclear hsupported he hend hzero
    · have hfactory := createReplyPacketFromBuffer_eq zip supported hclear (by omega)
      rw [if_neg hsupported] at hfactory
      exact ⟨exists_checkSTXAndSetPacketLength hheader, hannounced, hclear, ⟨_, hfactory⟩,
        fun h => absurd h hsupported, fun r hr => by cases hfactory.symm.trans hr⟩

/-- A reply of type `0x15` with one param, received with the length it has. -/
theorem receiveSafe_iff_one_param :
    ReceiveSafe GunzipUtil.stub (· = 0x15) [0x02, 0, 0, 0, 21]
      (([0xb, 0, 0x15, 7, 1] : List UInt8) ++ keyed [0, 0, 0, 1, 0, 0, 9, 9, 9, 9]) :=
  have hver : ∀ pv ∈ (([0xb, 0, 0x15, 7, 1] : List UInt8) ++
      keyed [0, 0, 0, 1, 0, 0, 9, 9, 9, 9]).head?, pv < 0xc := by
    intro pv hpv
    obtain rfl := Option.some.inj hpv
    decide
  (receiveSafe_iff GunzipUtil.stub (· = 0x15) (by decide) (by decide) hver).mpr
    ⟨fun _ => by decide, by decide, fun _ => ⟨6, by decide, by decide, by decide⟩⟩

/-- A status message without terminator, in a payload of the length that was announced, makes
the constructor follow a null pointer. -/
theorem not_receiveSafe_unterminated :
    ¬ReceiveSafe GunzipUtil.stub (· = 0x15) [0x02, 0, 0, 0, 15]
      (([0xb, 0, 0x15, 7, 1] : List UInt8) ++ keyed [0, 65, 65, 65, 65]) := by
  intro h
  obtain ⟨packet, hpacket⟩ := h.defined
  have hfault : createReplyPacketFromBuffer GunzipUtil.stub (· = 0x15)
      (([0xb, 0, 0x15, 7, 1] : List UInt8) ++ keyed [0, 65, 65, 65, 65]) 10 =
        .error .nullPointer := by decide +kernel
  exact absurd (hfault.symm.trans hpacket) (by simp)

end CppCore.Ngp
