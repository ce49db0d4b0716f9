import CppCore.Generator.PacketRoundTrip
import CppCore.ConnectionManager.ConnectionReader

/-!
# Generated replies on the wire

A generated reply class is a `NavReplyPacket` with the members of its description.  One side
constructs an object, serializes it into its own param block and writes it; the other side hands
the bytes behind marker and length to the generated factory, whose `switch` finds the class under
the packet type and runs its buffer constructor.

## Main definitions

* `ReplyPacket`, `ReplyPacket.ofBuffer` — an object of a generated class and its constructor.
* `createReplyPacketFromBuffer` — the generated factory for a table of classes.
* `Sent` — the bytes of a reply that has been serialized and written.
* `createReplyPacketFromBuffer_sent_iff` — which replies the other side gets as they were.
-/

namespace CppCore.Generator

open Lib Utils Ngp ConnectionManager

/-- An object of a generated reply class. -/
structure ReplyPacket where
  /-- The reply it is. -/
  toNavReplyPacket : NavReplyPacket
  /-- Its own members. -/
  members : List Assignment

/-- The buffer constructor of the class with the params `params`. -/
def ReplyPacket.ofBuffer (zip : GunzipUtil) (target : Target) (fuel : ℕ) (params : List Param)
    (buff : List UInt8) (buffLen : ℕ) : Exec ReplyPacket := do
  let reply ← NavReplyPacket.ofBuffer zip buff buffLen
  let members ← construct target fuel params reply.m_params
  .ok ⟨reply, members⟩

/-- The generated `createReplyPacketFromBuffer`; `classes` are the cases of its `switch`. -/
def createReplyPacketFromBuffer (zip : GunzipUtil) (target : Target) (fuel : ℕ)
    (classes : UInt16 → Option (List Param)) (data : List UInt8) (size : ℕ) :
    Exec (Option ReplyPacket) := do
  let data ← wf_ngp_encrypt data 5 (sub32 size 5)
  let buff := Buffer.nonOwning data size
  let (_, buff) ← buff.readNext8bit
  let (type, _) ← buff.readNextUnaligned16bit
  match classes type with
  | some params => do
    let packet ← ReplyPacket.ofBuffer zip target fuel params data size
    .ok (some packet)
  | none => .ok none

/-- What a reply says: the header and the members. -/
structure Reply where
  /-- The protocol version. -/
  protoVer : UInt8
  /-- The packet type of the class. -/
  type : UInt16
  /-- The request it answers. -/
  reqID : UInt8
  /-- The version of the packet. -/
  reqVer : UInt8
  /-- The status code. -/
  statusCode : UInt8
  /-- The members. -/
  members : List Member

namespace Reply

/-- The params of the block after `serialize(getParamBlock())`. -/
def params (r : Reply) : NParams := (serialize r.members NParamBlock.empty).m_params

/-- `out` is what the reply writes, without a status message. -/
def Sent (zip : GunzipUtil) (r : Reply) (out : List UInt8) : Prop :=
  ∃ packet, NavReplyPacket.build r.protoVer r.type r.reqID r.reqVer r.statusCode none r.params =
      .ok packet ∧
    packet.writeTo zip packet.writeSpecificHeaderPart [] = .ok out

/-- The object has the header of the reply, a valid block and all of its members. -/
def Recovers (r : Reply) (packet : ReplyPacket) : Prop :=
  packet.toNavReplyPacket.m_protoVer = r.protoVer ∧ packet.toNavReplyPacket.m_type = r.type ∧
    packet.toNavReplyPacket.m_reqID = r.reqID ∧ packet.toNavReplyPacket.m_reqVer = r.reqVer ∧
    packet.toNavReplyPacket.m_statusCode = r.statusCode ∧
    packet.toNavReplyPacket.m_params.getValid = true ∧
    packet.members = r.members.map Member.assigned

end Reply

/-! ## The factory -/

/-- **The factory on a payload**: the class under its type constructs the object from the decrypted
bytes. -/
theorem factory_eq (zip : GunzipUtil) (target : Target) (fuel : ℕ)
    (classes : UInt16 → Option (List Param)) {payload : List UInt8}
    (hlen : HEADER_LENGTH ≤ payload.length) (hsize : payload.length < 2 ^ 32) :
    createReplyPacketFromBuffer zip target fuel classes payload payload.length =
      match classes (packetType payload) with
      | some params =>
        ReplyPacket.ofBuffer zip target fuel params (decrypted payload)
          (decrypted payload).length >>= fun packet => .ok (some packet)
      | none => .ok none := by
  obtain ⟨pv, b₁, b₂, hcrypt, hread₁, hread₂⟩ := exists_readType hlen hsize
  simp only [createReplyPacketFromBuffer, hcrypt, Exec.ok_bind, hread₁, hread₂, length_decrypted]

namespace Reply

variable {zip : GunzipUtil} {r : Reply} {out : List UInt8}

/-! ## What is sent -/

/-- What a reply writes is the encoding of its params, and fits into a vector. -/
theorem Sent.eq_wire (h : Sent zip r out) :
    ∃ p : NavPacket, p = ⟨r.protoVer, r.type, r.reqID, r.reqVer, ⟨r.params, true, 0⟩⟩ ∧
      out = p.wire zip (NavReplyPacket.statusPart r.statusCode none) ⟨r.params, true, 0⟩ ∧
      out.length ≤ vectorMaxSize := by
  obtain ⟨packet, hbuild, hwrite⟩ := h
  rw [NavReplyPacket.writeTo_of_build zip rfl rfl hbuild] at hwrite
  split at hwrite
  · cases hwrite
  · rename_i hle
    obtain rfl := Except.ok.inj hwrite
    exact ⟨_, rfl, rfl, not_lt.mp hle⟩

/-- It is a packet that the reader can find in a stream. -/
theorem Sent.written (h : Sent zip r out) : Written out := by
  obtain ⟨packet, hbuild, hwrite⟩ := h
  rw [(NavReplyPacket.writeSpecificHeaderPart_of_build hbuild).2] at hwrite
  exact ⟨zip, packet.toNavPacket, _, _, hwrite⟩

/-- Its bytes behind marker and length are those of the header, and the type is among them. -/
theorem Sent.payload (h : Sent zip r out) :
    HEADER_LENGTH ≤ (out.drop 5).length ∧ (out.drop 5).length < 2 ^ 32 ∧
      packetType (out.drop 5) = r.type := by
  obtain ⟨p, rfl, rfl, hle⟩ := h.eq_wire
  have hmax : vectorMaxSize = 2 ^ 31 - 1 := rfl
  have hlen := NavPacket.length_wire zip
    ⟨r.protoVer, r.type, r.reqID, r.reqVer, ⟨r.params, true, 0⟩⟩
    (NavReplyPacket.statusPart r.statusCode none) ⟨r.params, true, 0⟩
  rw [List.length_drop]
  refine ⟨?_, ?_, ?_⟩
  · rw [HEADER_LENGTH]
    omega
  · omega
  · rw [NavPacket.drop_wire]
    exact ofBE16_be16 r.type

/-- **The other side reads the same header and the same params.** -/
theorem Sent.receive (h : Sent zip r out) (hfits : ∀ p ∈ r.params.toList, p.m_buff.length ≤ 65535) :
    ∃ reply, NavReplyPacket.ofBuffer zip (decrypted (out.drop 5)) (decrypted (out.drop 5)).length =
        .ok reply ∧ reply.m_protoVer = r.protoVer ∧ reply.m_type = r.type ∧
      reply.m_reqID = r.reqID ∧ reply.m_reqVer = r.reqVer ∧ reply.m_statusCode = r.statusCode ∧
      reply.m_params.getValid = true ∧ reply.m_params.m_params = r.params := by
  obtain ⟨hlen, hsize, -⟩ := h.payload
  have hsplit := h.eq_wire
  obtain ⟨packet, hbuild, hwrite⟩ := h
  have hroom : ((⟨r.params, true, 0⟩ : NParamBlock).encoding zip r.protoVer).length + 16 ≤
      vectorMaxSize := by
    obtain ⟨p, rfl, rfl, hle⟩ := hsplit
    rw [NavPacket.length_wire, NavPacket.body, List.length_append,
      show (NavReplyPacket.statusPart r.statusCode none).length = 2 from rfl] at hle
    simp only at hle
    omega
  obtain ⟨packet', out', reply, hbuild', hwrite', hreceive, hpv, htype, hid, hrv, hsc, -, hvalid,
    hparams⟩ := NavReplyPacket.roundTrips_none zip r.protoVer r.type r.reqID r.reqVer r.statusCode
      r.params hfits hroom
  obtain rfl := Except.ok.inj (hbuild.symm.trans hbuild')
  obtain rfl := Except.ok.inj (hwrite.symm.trans hwrite')
  have hcrypt := (wf_ngp_encrypt_eq_ok hsize (by decide : 5 ≤ 2 ^ 31)).mpr ⟨hlen, rfl⟩
  rw [← decrypted] at hcrypt
  rw [NavReplyPacket.receive, hcrypt, Exec.ok_bind] at hreceive
  exact ⟨reply, hreceive, hpv, htype, hid, hrv, hsc, hvalid, OrderedMultiset.ext hparams⟩

/-- No payload of the block is longer than its length field can say. -/
theorem fits {target : Target} (hplain : ∀ m ∈ r.members, m.Plain)
    (hvalid : ∀ m ∈ r.members, m.Valid target) :
    ∀ p ∈ r.params.toList, p.m_buff.length ≤ 65535 := by
  intro p hp
  rw [params, serialize_eq] at hp
  have hmem : p ∈ r.members.flatMap Member.params := by
    simpa [NParamBlock.empty] using (OrderedMultiset.perm_insertAll _ _).mem_iff.mp hp
  obtain ⟨m, hm, hpm⟩ := List.mem_flatMap.mp hmem
  have hlen := hvalid m hm
  cases hplain m hm with
  | simple id t v | bool id v | struct id ms v =>
    obtain rfl := List.mem_singleton.mp hpm
    exact hlen.2

/-- A reply whose payloads fit their length fields, and all together a vector, can be sent. -/
theorem exists_sent (zip : GunzipUtil) (hfits : ∀ p ∈ r.params.toList, p.m_buff.length ≤ 65535)
    (hsize : ((⟨r.params, true, 0⟩ : NParamBlock).encoding zip r.protoVer).length + 16 ≤
      vectorMaxSize) : ∃ out, r.Sent zip out := by
  obtain ⟨packet, out, reply, hbuild, hwrite, -⟩ := NavReplyPacket.roundTrips_none zip r.protoVer
    r.type r.reqID r.reqVer r.statusCode r.params hfits hsize
  exact ⟨out, packet, hbuild, hwrite⟩

/-! ## What is received -/

/-- Its bytes on the other side: the factory finds the class, and the object is a reply with the
same header and the members its constructor makes of the params. -/
theorem Sent.factory {target : Target} (fuel : ℕ) {classes : UInt16 → Option (List Param)}
    (hsent : r.Sent zip out) (hclass : classes r.type = some (r.members.map Member.param))
    (hplain : ∀ m ∈ r.members, m.Plain) (hvalid : ∀ m ∈ r.members, m.Valid target) :
    ∃ reply : NavReplyPacket,
      createReplyPacketFromBuffer zip target fuel classes (out.drop 5) (out.drop 5).length =
        (construct target fuel (r.members.map Member.param) reply.m_params >>= fun members =>
          .ok (some ⟨reply, members⟩)) ∧
      reply.m_params.m_params = r.params ∧
      ∀ members, r.Recovers ⟨reply, members⟩ ↔ members = r.members.map Member.assigned := by
  obtain ⟨hlen, hsize, htype⟩ := hsent.payload
  obtain ⟨reply, hreply, hpv, hty, hid, hrv, hsc, hok, hparams⟩ :=
    hsent.receive (fits hplain hvalid)
  refine ⟨reply, ?_, hparams, fun members => ⟨fun h => h.2.2.2.2.2.2, fun h =>
    ⟨hpv, hty, hid, hrv, hsc, hok, h⟩⟩⟩
  rw [factory_eq zip target fuel classes hlen hsize, htype, hclass]
  simp only [ReplyPacket.ofBuffer, hreply, Exec.ok_bind]
  cases construct target fuel (r.members.map Member.param) reply.m_params <;> rfl

/-- When the constructor assigns the members that were sent. -/
theorem construct_iff {target : Target} (fuel : ℕ) (hplain : ∀ m ∈ r.members, m.Plain)
    (hids : (r.members.map Member.id).Nodup) (hvalid : ∀ m ∈ r.members, m.Valid target)
    {block : NParamBlock} (hparams : block.m_params = r.params) :
    construct target fuel (r.members.map Member.param) block =
        .ok (r.members.map Member.assigned) ↔
      (∀ m ∈ r.members, m.Symmetric target.host ∧ m.Visible) ∧
        r.members.Pairwise (fun a b => a.Hollow ∨ b.Hollow) := by
  have hget : ∀ m ∈ r.members, m.params = (block.getParam m.id).toList := by
    intro m hm
    rw [NParamBlock.getParam, hparams]
    exact getParam_serialize hplain hids hm
  rw [construct, constructFrom_iff fuel hplain hvalid hget (Nat.zero_le _)]
  simp [Member.structBytes_eq_nil]

/-- A reply of a class the factory knows, whose members pass every hazard of the generated code. -/
structure Sound (target : Target) (classes : UInt16 → Option (List Param)) (r : Reply) : Prop where
  /-- The factory has the class under the type. -/
  known : classes r.type = some (r.members.map Member.param)
  /-- There are no `T[]` and no strided params. -/
  plain : ∀ m ∈ r.members, m.Plain
  /-- The ids differ. -/
  ids : (r.members.map Member.id).Nodup
  /-- The payloads fit. -/
  valid : ∀ m ∈ r.members, m.Valid target
  /-- Signed integers read the same in both byte orders. -/
  symmetric : ∀ m ∈ r.members, m.Symmetric target.host
  /-- No member is hidden from the constructor of its struct. -/
  visible : ∀ m ∈ r.members, m.Visible
  /-- At most one struct has something in it. -/
  hollow : r.members.Pairwise fun a b => a.Hollow ∨ b.Hollow

/-- Such a reply arrives. -/
theorem Sent.arrives {target : Target} (fuel : ℕ) {classes : UInt16 → Option (List Param)}
    (hsent : r.Sent zip out) (hr : r.Sound target classes) :
    ∃ packet, createReplyPacketFromBuffer zip target fuel classes (out.drop 5)
      (out.drop 5).length = .ok (some packet) ∧ r.Recovers packet := by
  obtain ⟨reply, hfactory, hparams, hrecovers⟩ := hsent.factory fuel hr.known hr.plain hr.valid
  rw [hfactory, (construct_iff fuel hr.plain hr.ids hr.valid hparams).mpr
    ⟨fun m hm => ⟨hr.symmetric m hm, hr.visible m hm⟩, hr.hollow⟩]
  exact ⟨_, rfl, (hrecovers _).mpr rfl⟩

/-- **Which replies arrive as they were sent.**  The factory makes of the bytes of a reply an object
with the same header and the same members exactly when its signed integers read the same in both
byte orders, unless the host has that of the network, no member of its structs is hidden from a
constructor, and at most one of its structs has an integer, an enum or a string in it. -/
theorem createReplyPacketFromBuffer_sent_iff {target : Target} (fuel : ℕ)
    {classes : UInt16 → Option (List Param)} (hsent : r.Sent zip out)
    (hclass : classes r.type = some (r.members.map Member.param))
    (hplain : ∀ m ∈ r.members, m.Plain) (hids : (r.members.map Member.id).Nodup)
    (hvalid : ∀ m ∈ r.members, m.Valid target) :
    (∃ packet, createReplyPacketFromBuffer zip target fuel classes (out.drop 5)
        (out.drop 5).length = .ok (some packet) ∧ r.Recovers packet) ↔
      (∀ m ∈ r.members, m.Symmetric target.host ∧ m.Visible) ∧
        r.members.Pairwise (fun a b => a.Hollow ∨ b.Hollow) := by
  obtain ⟨reply, hfactory, hparams, hrecovers⟩ := hsent.factory fuel hclass hplain hvalid
  rw [hfactory, ← construct_iff fuel hplain hids hvalid hparams]
  constructor
  · rintro ⟨packet, hpacket, h⟩
    obtain ⟨members, hmembers, hobject⟩ := Exec.bind_eq_ok.mp hpacket
    obtain rfl := Option.some.inj (Except.ok.inj hobject)
    rw [hmembers, (hrecovers members).mp h]
  · intro hconstruct
    rw [hconstruct]
    exact ⟨_, rfl, (hrecovers _).mpr rfl⟩

/-- A reply with a string, a struct and a number that reads the same in both byte orders. -/
def pixelReply : Reply :=
  ⟨0xb, 0x15, 7, 1, 0,
    [.single 7 (.simple .string) (⟨[0x41], by decide⟩ : CString),
      .single 1300 (.struct pixelDimensions) ((240 : UInt16), (320 : UInt16), ()),
      .single 2 (.simple (.int .int32)) (0x01020201 : Int32)]⟩

/-- A factory that knows no other replies. -/
def pixelClasses (type : UInt16) : Option (List Param) :=
  if type = 0x15 then some (pixelReply.members.map Member.param) else none

theorem sound_pixelReply : pixelReply.Sound ⟨.little, fun _ => 1000⟩ pixelClasses := by
  refine ⟨rfl, ?_, by decide, ?_, ?_, ?_, by simp [pixelReply, Member.Hollow]⟩ <;>
  simp only [pixelReply, List.forall_mem_cons, List.not_mem_nil, false_implies, implies_true,
    and_true]
  · exact ⟨.simple _ _ _, .struct _ _ _, .simple _ _ _⟩
  · exact ⟨⟨trivial, by decide⟩, ⟨⟨trivial, trivial, trivial⟩, by decide⟩, ⟨trivial, by decide⟩⟩
  · exact ⟨trivial, trivial, Or.inr (by decide)⟩
  · exact ⟨trivial, ⟨by decide, trivial, by decide, trivial, trivial⟩, trivial⟩

theorem exists_sent_pixelReply : ∃ out, pixelReply.Sent GunzipUtil.stub out :=
  exists_sent GunzipUtil.stub (fits sound_pixelReply.plain sound_pixelReply.valid) (by decide)

theorem createReplyPacketFromBuffer_sent_struct :
    ∃ out packet, pixelReply.Sent GunzipUtil.stub out ∧
      createReplyPacketFromBuffer GunzipUtil.stub ⟨.little, fun _ => 1000⟩ 0 pixelClasses
        (out.drop 5) (out.drop 5).length = .ok (some packet) ∧ pixelReply.Recovers packet := by
  obtain ⟨out, hsent⟩ := exists_sent_pixelReply
  have hr := sound_pixelReply
  obtain ⟨packet, hpacket, hrecovers⟩ := (createReplyPacketFromBuffer_sent_iff 0 hsent hr.known
    hr.plain hr.ids hr.valid).mpr ⟨fun m hm => ⟨hr.symmetric m hm, hr.visible m hm⟩, hr.hollow⟩
  exact ⟨out, packet, hsent, hpacket, hrecovers⟩

end Reply

end CppCore.Generator
