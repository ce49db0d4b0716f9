import CppCore.Generator.PacketRoundTrip
import CppCore.ServerCom.SendQueue

/-!
# Sending one packet several times

`ServerHandler::sendBlocking` serializes the members of a packet into the param block of the packet
itself, and `serialize` adds a param for each of them.  The params that identify the client go into
a copy.  A packet that its caller keeps and sends again has the params of all earlier sends in its
block.

## Main definitions

* `NavRequestPacket.sendNGPMessage`, `sendAll` — one send, and the sends of one packet object.
* `Transmission.Alike` — the same params, and the same bytes but for request id and checksum.
* `params_sendAll` — what each transmission carries.
* `resendsAlike_iff` — the requests all of whose transmissions are alike.
-/

namespace CppCore.ServerCom

open Lib Ngp Generator

/-- A request that was written to the connection. -/
structure Transmission where
  /-- The block that was written. -/
  params : NParamBlock
  /-- The bytes. -/
  bytes : List UInt8

/-- The params are those of the other transmission, and the bytes differ in the request id and the
checksum only. -/
structure Transmission.Alike (t₁ t : Transmission) : Prop where
  params : t.params.m_params.toList.Perm t₁.params.m_params.toList
  length : t.bytes.length = t₁.bytes.length
  bytes : ∀ i, i ≠ 8 → i + 4 < t₁.bytes.length → t.bytes[i]? = t₁.bytes[i]?

namespace NavRequestPacket

/-- The block `writeTo( buff, extraParams )` writes: that of the packet, and `fakeID`. -/
def written (p : NavRequestPacket) : NParamBlock :=
  fakeID.foldl NParamBlock.addParam (NParamBlock.empty.assignToThis p.serialized.m_params)

/-- `ServerHandler::sendBlocking( packet )`: what it writes, and the packet it leaves. -/
def sendBlocking (zip : GunzipUtil) (p : NavRequestPacket) :
    Exec (Transmission × NavRequestPacket) := do
  let buf ← p.buf zip
  .ok (⟨p.written, buf⟩, { p with packet := p.serialized })

/-- `ServerHandler::sendNGPMessage` of a caller that writes its packet itself, under the request id
it was given. -/
def sendNGPMessage (zip : GunzipUtil) (p : NavRequestPacket) (requestId : UInt32) :
    Exec (Transmission × NavRequestPacket) :=
  sendBlocking zip { p with packet := p.packet.setReqID requestId.toUInt8 }

/-- The sends of one packet object, which get these request ids. -/
def sendAll (zip : GunzipUtil) (p : NavRequestPacket) : List UInt32 → Exec (List Transmission)
  | [] => .ok []
  | id :: ids => do
    let (t, p) ← p.sendNGPMessage zip id
    let ts ← p.sendAll zip ids
    .ok (t :: ts)

end NavRequestPacket

/-- A packet of the request class with these members, as its constructor leaves it. -/
def newRequest (ms : List Member) (protoVer : UInt8) (type : UInt16) (reqID reqVer : UInt8) :
    NavRequestPacket :=
  ⟨NavPacket.new protoVer type reqID reqVer, serialize ms⟩

/-- However often a packet of the request class is sent, it is sent each time, and each
transmission is like the first. -/
def ResendsAlike (zip : GunzipUtil) (ms : List Member) : Prop :=
  ∀ protoVer type reqID reqVer ids, ∃ ts,
    (newRequest ms protoVer type reqID reqVer).sendAll zip ids = .ok ts ∧
      ∀ t₁ ∈ ts.head?, ∀ t ∈ ts, t₁.Alike t

/-! ## What is carried -/

/-- The packet after a send under the request id `id`. -/
def afterSend (ms : List Member) (packet : NavPacket) (id : UInt32) : NavPacket :=
  { packet.setReqID id.toUInt8 with m_params := serialize ms packet.m_params }

/-- A send writes the packet it leaves. -/
theorem sendNGPMessage_eq_ok {zip : GunzipUtil} {ms : List Member} {packet : NavPacket}
    {id : UInt32} {t : Transmission} {q : NavRequestPacket}
    (h : NavRequestPacket.sendNGPMessage zip ⟨packet, serialize ms⟩ id = .ok (t, q)) :
    q = ⟨afterSend ms packet id, serialize ms⟩ ∧
      t.params.m_params.toList.Perm
        ((serialize ms packet.m_params).m_params.toList ++ NavRequestPacket.fakeID) := by
  obtain ⟨buf, -, heq⟩ := Exec.bind_eq_ok.mp h
  obtain ⟨rfl, rfl⟩ := Prod.mk.inj (Except.ok.inj heq)
  refine ⟨rfl, ?_⟩
  rw [NavRequestPacket.written, NParamBlock.assignToThis_eq]
  exact OrderedMultiset.perm_insertAll _ NavRequestPacket.fakeID

/-- **What the transmissions carry**: each has the params of the members once more than the one
before it. -/
theorem params_sendAll {zip : GunzipUtil} {ms : List Member} {packet : NavPacket}
    {ids : List UInt32} {ts : List Transmission}
    (h : NavRequestPacket.sendAll zip ⟨packet, serialize ms⟩ ids = .ok ts) {k : ℕ}
    {t : Transmission} (ht : ts[k]? = some t) :
    t.params.m_params.toList.Perm (packet.m_params.m_params.toList ++
      (List.replicate (k + 1) (ms.flatMap Member.params)).flatten ++
        NavRequestPacket.fakeID) := by
  induction ids generalizing packet ts k with
  | nil =>
    obtain rfl := Except.ok.inj h
    cases ht
  | cons id ids ih =>
    obtain ⟨⟨t₀, q⟩, hsend, hrest⟩ := Exec.bind_eq_ok.mp h
    obtain ⟨ts', hall, heq⟩ := Exec.bind_eq_ok.mp hrest
    obtain rfl := Except.ok.inj heq
    obtain ⟨rfl, hcarried⟩ := sendNGPMessage_eq_ok hsend
    have hserialized : (serialize ms packet.m_params).m_params.toList.Perm
        (packet.m_params.m_params.toList ++ ms.flatMap Member.params) := by
      rw [serialize_eq]
      exact OrderedMultiset.perm_insertAll _ _
    cases k with
    | zero =>
      obtain rfl := Option.some.inj ht
      simpa using hcarried.trans (hserialized.append_right _)
    | succ k =>
      have hsplit : (List.replicate (k + 1 + 1) (ms.flatMap Member.params)).flatten =
          ms.flatMap Member.params ++
            (List.replicate (k + 1) (ms.flatMap Member.params)).flatten := by
        rw [List.replicate_succ, List.flatten_cons]
      refine (ih hall ht).trans (List.Perm.append_right _ ?_)
      rw [hsplit, ← List.append_assoc]
      exact hserialized.append_right _

/-! ## The bytes -/

/-- The bytes in front of the checksum, and four for the checksum itself. -/
theorem wire_eq_append (zip : GunzipUtil) (p : NavPacket) (header : List UInt8)
    (params : NParamBlock) : ∃ sum, sum.length = 4 ∧ p.wire zip header params =
      p.start ((p.body zip header params).length + 4) ++ keyed (p.body zip header params) ++
        sum := by
  refine ⟨xorStream nextMagicPos (fun magicPos => XORSTRING.getD magicPos 0)
    (nextMagicPos^[(p.body zip header params).length] 0) (be32 (p.checksum zip header params)),
    length_xorStream _ _ _ _, ?_⟩
  rw [NavPacket.wire, keyed, xorStream_append, ← keyed, ← List.append_assoc]

/-- A packet under another request id has other bytes in the place of the request id and of the
checksum only. -/
theorem getElem?_wire_setReqID (zip : GunzipUtil) (p : NavPacket) (header : List UInt8)
    (params : NParamBlock) (reqId : UInt8) {i : ℕ} (hid : i ≠ 8)
    (hsum : i + 4 < (p.wire zip header params).length) :
    ((p.setReqID reqId).wire zip header params)[i]? = (p.wire zip header params)[i]? := by
  obtain ⟨sum, hlen, hwire⟩ := wire_eq_append zip p header params
  obtain ⟨sum', -, hwire'⟩ := wire_eq_append zip (p.setReqID reqId) header params
  have hfront : (p.setReqID reqId).start ((p.body zip header params).length + 4) ++
      keyed (p.body zip header params) =
      (p.start ((p.body zip header params).length + 4) ++
        keyed (p.body zip header params)).set 8 reqId := rfl
  have hbody : (p.setReqID reqId).body zip header params = p.body zip header params := rfl
  rw [hbody, hfront] at hwire'
  rw [hwire, List.length_append, hlen] at hsum
  rw [hwire, hwire', List.getElem?_append_left (by rw [List.length_set]; omega),
    List.getElem?_append_left (by omega), List.getElem?_set_ne hid.symm]

/-! ## When transmissions are alike -/

/-- A member adds no params exactly if it is strided and has no elements. -/
theorem params_eq_nil {m : Member} :
    m.params = [] ↔ ∃ id type s, m = .strided id type s [] := by
  cases m with
  | single id type v => simp [Member.params]
  | strided id type s v => cases v <;> simp [Member.params]

/-- The block with nothing but `fakeID`. -/
def onlyFakeID : NParamBlock := NavRequestPacket.fakeID.foldl NParamBlock.addParam NParamBlock.empty

/-- The block is small. -/
theorem length_wire_onlyFakeID (zip : GunzipUtil) (p : NavPacket) :
    (p.wire zip [] onlyFakeID).length ≤ vectorMaxSize := by
  have hparams : (onlyFakeID.m_params.toList.map fun q => q.m_buff.length + 4).sum = 37 := by decide
  have hmax : 100 ≤ vectorMaxSize := by decide
  rw [NavPacket.length_wire, NavPacket.body, List.nil_append, NParamBlock.length_encoding, hparams]
  split <;> omega

/-- Without params a packet stays as it was, but for its request id. -/
theorem send_of_serialize_eq (zip : GunzipUtil) {ms : List Member}
    (hnone : ∀ block, serialize ms block = block) {packet : NavPacket}
    (hempty : packet.m_params = NParamBlock.empty) (id : UInt32) :
    NavRequestPacket.sendNGPMessage zip ⟨packet, serialize ms⟩ id =
      .ok (⟨onlyFakeID, (packet.setReqID id.toUInt8).wire zip [] onlyFakeID⟩,
        ⟨packet.setReqID id.toUInt8, serialize ms⟩) := by
  have hserialized : NavRequestPacket.serialized ⟨packet.setReqID id.toUInt8, serialize ms⟩ =
      packet.setReqID id.toUInt8 := by
    simp only [NavRequestPacket.serialized, hnone]
  have hwritten : NavRequestPacket.written ⟨packet.setReqID id.toUInt8, serialize ms⟩ =
      onlyFakeID := by
    rw [NavRequestPacket.written, hserialized, NavPacket.setReqID, hempty,
      NParamBlock.assignToThis_eq]
    rfl
  have hbuf : NavRequestPacket.buf zip ⟨packet.setReqID id.toUInt8, serialize ms⟩ =
      .ok ((packet.setReqID id.toUInt8).wire zip [] onlyFakeID) := by
    have hsize := length_wire_onlyFakeID zip (packet.setReqID id.toUInt8)
    rw [← hwritten, NavRequestPacket.written, hserialized] at hsize ⊢
    rw [NavRequestPacket.buf, hserialized, NavPacket.writeToWith, NavPacket.writeToInternal_eq,
      if_neg (not_lt.mpr hsize)]
  rw [NavRequestPacket.sendNGPMessage, NavRequestPacket.sendBlocking, hbuf, Exec.ok_bind,
    hwritten, hserialized]

theorem sendAll_of_serialize_eq (zip : GunzipUtil) {ms : List Member}
    (hnone : ∀ block, serialize ms block = block) {packet : NavPacket}
    (hempty : packet.m_params = NParamBlock.empty) (ids : List UInt32) :
    NavRequestPacket.sendAll zip ⟨packet, serialize ms⟩ ids = .ok (ids.map fun id =>
      ⟨onlyFakeID, (packet.setReqID id.toUInt8).wire zip [] onlyFakeID⟩) := by
  induction ids generalizing packet with
  | nil => rfl
  | cons id ids ih =>
    have hempty' : (packet.setReqID id.toUInt8).m_params = NParamBlock.empty := hempty
    have hrest := ih hempty'
    simp only [NavRequestPacket.sendAll, send_of_serialize_eq zip hnone hempty, Exec.ok_bind, hrest]
    rfl

/-- Two packets of one class under different request ids. -/
theorem alike_setReqID (zip : GunzipUtil) (packet : NavPacket) (id₁ id : UInt8) :
    Transmission.Alike ⟨onlyFakeID, (packet.setReqID id₁).wire zip [] onlyFakeID⟩
      ⟨onlyFakeID, (packet.setReqID id).wire zip [] onlyFakeID⟩ where
  params := List.Perm.refl _
  length := by
    rw [NavPacket.length_wire, NavPacket.length_wire]
    rfl
  bytes := by
    intro i hid hsum
    exact getElem?_wire_setReqID zip (packet.setReqID id₁) [] onlyFakeID id hid hsum

/-- The second of two transmissions has the params once more, so that there are none. -/
theorem ResendsAlike.params_eq_nil {zip : GunzipUtil} {ms : List Member}
    (h : ResendsAlike zip ms) : ms.flatMap Member.params = [] := by
  obtain ⟨ts, hsend, halike⟩ := h 0 0 0 0 [0, 0]
  obtain ⟨⟨t₁, q₁⟩, -, hrest⟩ := Exec.bind_eq_ok.mp hsend
  obtain ⟨ts', hsend', heq⟩ := Exec.bind_eq_ok.mp hrest
  obtain ⟨⟨t₂, q₂⟩, -, hrest'⟩ := Exec.bind_eq_ok.mp hsend'
  obtain ⟨ts'', hnil, heq'⟩ := Exec.bind_eq_ok.mp hrest'
  obtain rfl := Except.ok.inj hnil
  obtain rfl := Except.ok.inj heq'
  obtain rfl := Except.ok.inj heq
  have h₁ := (params_sendAll hsend (show [t₁, t₂][0]? = some t₁ from rfl)).length_eq
  have h₂ := (params_sendAll hsend (show [t₁, t₂][1]? = some t₂ from rfl)).length_eq
  have hsame := (halike t₁ rfl t₂ (by simp)).params.length_eq
  simp only [List.replicate_succ, List.replicate_zero, List.flatten_cons, List.flatten_nil,
    List.length_append, List.append_nil] at h₁ h₂
  apply List.length_eq_zero_iff.mp
  omega

/-- **The transmissions of a packet are alike exactly if** its class has no params but strided ones,
and these have no elements. -/
theorem resendsAlike_iff (zip : GunzipUtil) (ms : List Member) :
    ResendsAlike zip ms ↔ ∀ m ∈ ms, ∃ id type s, m = .strided id type s [] := by
  refine ⟨?_, ?_⟩
  · intro h m hm
    exact params_eq_nil.mp (List.flatMap_eq_nil_iff.mp h.params_eq_nil m hm)
  · intro h protoVer type reqID reqVer ids
    have hnil : ms.flatMap Member.params = [] :=
      List.flatMap_eq_nil_iff.mpr fun m hm => params_eq_nil.mpr (h m hm)
    have hnone : ∀ block, serialize ms block = block := by
      intro block
      rw [serialize_eq, hnil, OrderedMultiset.insertAll_nil]
    refine ⟨_, sendAll_of_serialize_eq zip hnone rfl ids, ?_⟩
    intro t₁ ht₁ t ht
    obtain ⟨id₁, -, rfl⟩ := List.mem_map.mp (List.mem_of_mem_head? ht₁)
    obtain ⟨id, -, rfl⟩ := List.mem_map.mp ht
    exact alike_setReqID zip _ id₁.toUInt8 id.toUInt8

/-- A request with one number is not sent alike: the second transmission carries it twice. -/
theorem not_resendsAlike_uint32 :
    ¬ResendsAlike GunzipUtil.stub [.single 4800 (.simple (.int .uint32)) (1 : UInt32)] := by
  intro h
  have hnil := h.params_eq_nil
  simp [Member.params] at hnil

end CppCore.ServerCom
