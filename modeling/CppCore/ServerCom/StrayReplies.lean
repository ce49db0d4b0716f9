import CppCore.ServerCom.ServerHandler

/-!
# Stray replies

A reply is stray when no request waits under its request id: nobody asked, or the answer came
before.  The handler has a branch for a reply without anyone waiting for it, which it takes when
the receiver it looks up is null.  But the request map inserts a default for an absent key, and
this default is the module of the router.

The exchange keeps every request that was ever sent, so that replies to an answered one can be
told from the first.  Ids are below 256 here, so the byte in a packet names its request.

## Main definitions

* `Exchange`, `Exchange.step` — the handler, all requests so far, and everything that can happen.
* `Exchange.Stray`, `Exchange.Rejected` — a reply nobody waits for; that it has no effect.
* `Exchange.Inv` — the invariant of all runs.
* `Exchange.strays_rejected_iff` — the runs in which every stray reply is rejected and no request
  causes two deliveries.
-/

namespace CppCore.ServerCom

open Lib Ngp ReceiverModuleId

/-- How far a request has come. -/
inductive Stage
  /-- It has its id. -/
  | issued
  /-- Its module waits for the reply. -/
  | waiting
  /-- A reply with its id has been received. -/
  | answered
  deriving DecidableEq, Repr

/-- A request, answered or not. -/
structure Request where
  /-- The id it was given. -/
  requestId : UInt32
  /-- The module it is for. -/
  receiverId : ReceiverModuleId
  /-- The request id in its packet. -/
  reqID : UInt8
  /-- How far it has come. -/
  stage : Stage
  /-- The server has its packet. -/
  sent : Bool
  /-- How many times a receiver was called for a reply with its id. -/
  deliveries : ℕ
  deriving DecidableEq, Repr

/-- A reply with the id `reqID` has been received, and a receiver was called for it or not. -/
def Request.note (reqID : UInt8) (called : Bool) (r : Request) : Request :=
  if r.reqID = reqID then
    { r with
      stage := if r.stage = .waiting then .answered else r.stage
      deliveries := r.deliveries + called.toNat }
  else r

/-- The handler and the requests so far, named by their position. -/
structure Exchange (ρ : Type) where
  /-- The handler. -/
  handler : ServerHandler ρ
  /-- The requests, in the order in which they got their ids. -/
  requests : List Request

/-- What can happen next. -/
inductive Event (ρ : Type)
  /-- A module calls `sendNGPMessage`, which generates an id and puts it into the packet. -/
  | issue (receiverId : ReceiverModuleId)
  /-- A call registers its module for the reply. -/
  | register (n : ℕ)
  /-- The packet of a request is sent. -/
  | transmit (n : ℕ)
  /-- The server answers a request, for the first time or again. -/
  | reply (n : ℕ)
  /-- A reply with any request id arrives. -/
  | unsolicited (reqID : UInt8)
  /-- A receiver is registered for a module. -/
  | registerReceiver (messageReceiver : ρ) (receiverId : ReceiverModuleId)
  /-- The receiver of a module is taken out. -/
  | deregisterReceiver (receiverId : ReceiverModuleId)
  deriving DecidableEq

namespace Exchange

variable {ρ : Type}

/-- A handler at the start, with any receivers. -/
def init (m_messageReceiverMap : AList fun _ : ReceiverModuleId => Option ρ) : Exchange ρ :=
  ⟨⟨0, ∅, m_messageReceiverMap⟩, []⟩

/-- A reply with the id `reqID` is received: the receiver that is called, and the state then. -/
def receive (s : Exchange ρ) (reqID : UInt8) : Option ρ × Exchange ρ :=
  let (receiver, handler) := s.handler.receivedNGPPacket reqID
  (receiver, ⟨handler, s.requests.map (Request.note reqID receiver.isSome)⟩)

/-- The request id of the reply an event brings, if it brings one. -/
def reqID? (s : Exchange ρ) : Event ρ → Option UInt8
  | .reply n => ((s.requests[n]?).filter Request.sent).map Request.reqID
  | .unsolicited reqID => some reqID
  | _ => none

/-- One step.  Ids stay below 256, and a packet is sent once its module waits. -/
def step (s : Exchange ρ) : Event ρ → Option (Exchange ρ)
  | .issue receiverId =>
    let (requestId, handler) := s.handler.generateNewRequestId
    if requestId < 256 then
      let reqID := ((NavPacket.new NavPacket.getCurrentProtoVer 0 0 0).setReqID
        requestId.toUInt8).m_reqID
      some ⟨handler, s.requests ++ [⟨requestId, receiverId, reqID, .issued, false, 0⟩]⟩
    else none
  | .register n =>
    ((s.requests[n]?).filter fun r => r.stage = .issued).map fun r =>
      ⟨s.handler.registerReceiverId r.requestId r.receiverId,
        s.requests.set n { r with stage := .waiting }⟩
  | .transmit n =>
    ((s.requests[n]?).filter fun r => r.stage ≠ .issued ∧ !r.sent).map fun r =>
      { s with requests := s.requests.set n { r with sent := true } }
  | .reply n => (s.reqID? (.reply n)).map fun reqID => (s.receive reqID).2
  | .unsolicited reqID => some (s.receive reqID).2
  | .registerReceiver messageReceiver receiverId =>
    some { s with handler := s.handler.registerNGPMessageReceiver messageReceiver receiverId }
  | .deregisterReceiver receiverId =>
    some { s with handler := s.handler.deregisterNGPMessageReceiver receiverId }

/-- Every request takes notice of a reply. -/
theorem requests_receive (s : Exchange ρ) (b : UInt8) :
    (s.receive b).2.requests = s.requests.map (Request.note b (s.receive b).1.isSome) := rfl

/-! ## What is asked of stray replies -/

/-- The requests whose modules wait for a reply. -/
def outstanding (s : Exchange ρ) : List Request := s.requests.filter fun r => r.stage = .waiting

/-- No outstanding request has the id of the reply. -/
def Stray (s : Exchange ρ) (reqID : UInt8) : Prop := ∀ r ∈ s.outstanding, r.reqID ≠ reqID

instance (s : Exchange ρ) (reqID : UInt8) : Decidable (s.Stray reqID) :=
  inferInstanceAs (Decidable (∀ r ∈ s.outstanding, r.reqID ≠ reqID))

/-- A reply has no effect: no receiver is called, and the outstanding requests, what the request
map says about them and the registered receivers stay. -/
structure Rejected (s : Exchange ρ) (reqID : UInt8) : Prop where
  /-- No receiver is called. -/
  uncalled : (s.receive reqID).1 = none
  /-- The same requests wait. -/
  requests : (s.receive reqID).2.outstanding = s.outstanding
  /-- They are found under the same keys. -/
  entries : ∀ k, (s.receive reqID).2.handler.m_requestMap.lookup k = s.handler.m_requestMap.lookup k
  /-- The same receivers are registered. -/
  receivers : ∀ m, (s.receive reqID).2.handler.registered m = s.handler.registered m

/-- If the event brings a stray reply, it is rejected. -/
def StrayRejected (s : Exchange ρ) (e : Event ρ) : Prop :=
  ∀ reqID ∈ s.reqID? e, s.Stray reqID → s.Rejected reqID

/-- If the event brings a stray reply, the router has no receiver. -/
def RouterAbsent (s : Exchange ρ) (e : Event ρ) : Prop :=
  ∀ reqID ∈ s.reqID? e, s.Stray reqID → s.handler.registered CV3_MSG_ROUTER = none

/-- No request has caused more than one delivery. -/
def AtMostOnce (s : Exchange ρ) : Prop := ∀ r ∈ s.requests, r.deliveries ≤ 1

/-! ## What a step can do -/

theorem step_issue {s s' : Exchange ρ} {m : ReceiverModuleId} (h : s.step (.issue m) = some s') :
    s.handler.m_requestId + 1 < 256 ∧
      s' = ⟨{ s.handler with m_requestId := s.handler.m_requestId + 1 },
        s.requests ++ [⟨s.handler.m_requestId + 1, m, (s.handler.m_requestId + 1).toUInt8, .issued,
          false, 0⟩]⟩ := by
  simp only [step] at h
  split at h
  · rename_i hlt
    exact ⟨hlt, (Option.some.inj h).symm⟩
  · cases h

theorem step_register {s s' : Exchange ρ} {n : ℕ} (h : s.step (.register n) = some s') :
    ∃ r, s.requests[n]? = some r ∧ r.stage = .issued ∧
      s' = ⟨s.handler.registerReceiverId r.requestId r.receiverId,
        s.requests.set n { r with stage := .waiting }⟩ := by
  obtain ⟨r, hr, rfl⟩ := Option.map_eq_some_iff.mp h
  obtain ⟨hr, hstage⟩ := Option.filter_eq_some_iff.mp hr
  exact ⟨r, hr, by simpa using hstage, rfl⟩

theorem step_transmit {s s' : Exchange ρ} {n : ℕ} (h : s.step (.transmit n) = some s') :
    ∃ r, s.requests[n]? = some r ∧
      s' = { s with requests := s.requests.set n { r with sent := true } } := by
  obtain ⟨r, hr, rfl⟩ := Option.map_eq_some_iff.mp h
  exact ⟨r, (Option.filter_eq_some_iff.mp hr).1, rfl⟩

theorem step_reply {s s' : Exchange ρ} {n : ℕ} (h : s.step (.reply n) = some s') :
    ∃ reqID, s.reqID? (.reply n) = some reqID ∧ s' = (s.receive reqID).2 := by
  obtain ⟨reqID, hreqID, rfl⟩ := Option.map_eq_some_iff.mp h
  exact ⟨reqID, hreqID, rfl⟩

/-! ## The invariant -/

/-- What holds in every state of every run. -/
structure Inv (s : Exchange ρ) : Prop where
  /-- The ids are not used up. -/
  counter : s.handler.m_requestId.toNat < 256
  /-- The ids of the requests have been handed out. -/
  issued : ∀ r ∈ s.requests, r.requestId.toNat ≤ s.handler.m_requestId.toNat
  /-- No id was handed out twice. -/
  ids : (s.requests.map Request.requestId).Nodup
  /-- Packets carry their id. -/
  bytes : ∀ r ∈ s.requests, r.reqID = r.requestId.toUInt8
  /-- What the request map has an entry for is outstanding. -/
  current : ∀ k m, s.handler.m_requestMap.lookup k = some m → ∃ r ∈ s.outstanding, r.requestId = k

theorem inv_init (receivers : AList fun _ : ReceiverModuleId => Option ρ) :
    Inv (init receivers) where
  counter := (by decide : (0 : UInt32).toNat < 256)
  issued := by simp [init]
  ids := by simp [init]
  bytes := by simp [init]
  current := by simp [init]

theorem mem_outstanding {s : Exchange ρ} {r : Request} :
    r ∈ s.outstanding ↔ r ∈ s.requests ∧ r.stage = .waiting := by
  simp [outstanding]

/-- The id of a request, as the byte in its packet. -/
theorem Inv.requestId_eq {s : Exchange ρ} (hs : Inv s) {r : Request} (hr : r ∈ s.requests) :
    r.requestId = r.reqID.toUInt32 := by
  have hlt : r.requestId < 256 :=
    UInt32.lt_iff_toNat_lt.mpr ((hs.issued r hr).trans_lt hs.counter)
  rw [hs.bytes r hr, System.toUInt32_toUInt8_of_lt hlt]

/-- The byte in a packet names its request. -/
theorem Inv.eq_of_reqID {s : Exchange ρ} (hs : Inv s) {r r' : Request} (hr : r ∈ s.requests)
    (hr' : r' ∈ s.requests) (h : r.reqID = r'.reqID) : r = r' := by
  refine eq_of_key hs.ids hr hr' ?_
  rw [hs.requestId_eq hr, hs.requestId_eq hr', h]

theorem inv_issue {s s' : Exchange ρ} {m : ReceiverModuleId} (hs : Inv s)
    (hstep : s.step (.issue m) = some s') : Inv s' := by
  obtain ⟨hlt, rfl⟩ := step_issue hstep
  have hnext : (s.handler.m_requestId + 1).toNat = s.handler.m_requestId.toNat + 1 := by
    have hcounter := hs.counter
    rw [UInt32.toNat_add, UInt32.toNat_one]
    omega
  refine ⟨UInt32.lt_iff_toNat_lt.mp hlt, ?_, ?_, ?_, ?_⟩
  · intro r hr
    rcases List.mem_append.mp hr with hr | hr
    · exact (hs.issued r hr).trans (by rw [hnext]; omega)
    · obtain rfl := List.mem_singleton.mp hr
      exact le_rfl
  · rw [List.map_append, List.map_singleton]
    refine List.nodup_append.mpr ⟨hs.ids, by simp, ?_⟩
    intro id hid id' hid' heq
    obtain ⟨r, hr, rfl⟩ := List.mem_map.mp hid
    obtain rfl := List.mem_singleton.mp hid'
    have hle := hs.issued r hr
    rw [heq, hnext] at hle
    omega
  · intro r hr
    rcases List.mem_append.mp hr with hr | hr
    · exact hs.bytes r hr
    · obtain rfl := List.mem_singleton.mp hr
      rfl
  · intro k m hk
    obtain ⟨r, hr, hid⟩ := hs.current k m hk
    obtain ⟨hr, hstage⟩ := mem_outstanding.mp hr
    exact ⟨r, mem_outstanding.mpr ⟨List.mem_append_left _ hr, hstage⟩, hid⟩

/-- Changing a request without changing its id and byte keeps what is said about these. -/
private theorem inv_set {s : Exchange ρ} (hs : Inv s) {n : ℕ} {r : Request}
    (hr : s.requests[n]? = some r) (r' : Request)
    (hid : r'.requestId = r.requestId) (hbyte : r'.reqID = r.reqID) :
    (∀ q ∈ s.requests.set n r', q.requestId.toNat ≤ s.handler.m_requestId.toNat) ∧
      ((s.requests.set n r').map Request.requestId).Nodup ∧
      ∀ q ∈ s.requests.set n r', q.reqID = q.requestId.toUInt8 := by
  have hmem : r ∈ s.requests := List.mem_of_getElem? hr
  refine ⟨fun q hq => ?_, ?_, fun q hq => ?_⟩
  · rcases List.mem_or_eq_of_mem_set hq with hq | rfl
    · exact hs.issued q hq
    · rw [hid]
      exact hs.issued r hmem
  · rw [map_set_of_key Request.requestId hr hid]
    exact hs.ids
  · rcases List.mem_or_eq_of_mem_set hq with hq | rfl
    · exact hs.bytes q hq
    · rw [hid, hbyte]
      exact hs.bytes r hmem

theorem inv_register {s s' : Exchange ρ} {n : ℕ} (hs : Inv s)
    (hstep : s.step (.register n) = some s') : Inv s' := by
  obtain ⟨r, hr, hstage, rfl⟩ := step_register hstep
  obtain ⟨hissued, hids, hbytes⟩ :=
    inv_set hs hr { r with stage := .waiting } rfl rfl
  obtain ⟨hn, -⟩ := List.getElem?_eq_some_iff.mp hr
  refine ⟨hs.counter, hissued, hids, hbytes, fun k m hk => ?_⟩
  by_cases hkey : k = r.requestId
  · exact ⟨_, mem_outstanding.mpr ⟨List.mem_set hn _, rfl⟩, hkey.symm⟩
  · rw [ServerHandler.registerReceiverId, AList.lookup_insert_ne hkey] at hk
    obtain ⟨q, hq, hid⟩ := hs.current k m hk
    obtain ⟨hq, hwaiting⟩ := mem_outstanding.mp hq
    have hne : q ≠ r := by
      rintro rfl
      rw [hstage] at hwaiting
      cases hwaiting
    exact ⟨q, mem_outstanding.mpr ⟨mem_set_of_ne hr hq hne, hwaiting⟩, hid⟩

theorem inv_transmit {s s' : Exchange ρ} {n : ℕ} (hs : Inv s)
    (hstep : s.step (.transmit n) = some s') : Inv s' := by
  obtain ⟨r, hr, rfl⟩ := step_transmit hstep
  obtain ⟨hissued, hids, hbytes⟩ := inv_set hs hr { r with sent := true } rfl rfl
  obtain ⟨hn, -⟩ := List.getElem?_eq_some_iff.mp hr
  refine ⟨hs.counter, hissued, hids, hbytes, fun k m hk => ?_⟩
  obtain ⟨q, hq, hid⟩ := hs.current k m hk
  obtain ⟨hq, hwaiting⟩ := mem_outstanding.mp hq
  by_cases heq : q = r
  · subst heq
    exact ⟨_, mem_outstanding.mpr ⟨List.mem_set hn _, hwaiting⟩, hid⟩
  · exact ⟨q, mem_outstanding.mpr ⟨mem_set_of_ne hr hq heq, hwaiting⟩, hid⟩

@[simp] theorem requestId_note (b : UInt8) (called : Bool) (r : Request) :
    (r.note b called).requestId = r.requestId := by
  rw [Request.note]
  split <;> rfl

@[simp] theorem reqID_note (b : UInt8) (called : Bool) (r : Request) :
    (r.note b called).reqID = r.reqID := by
  rw [Request.note]
  split <;> rfl

/-- A request with another id takes no notice of a reply. -/
theorem note_of_ne {b : UInt8} {r : Request} (h : r.reqID ≠ b) (called : Bool) :
    r.note b called = r := if_neg h

theorem inv_receive {s : Exchange ρ} (hs : Inv s) (b : UInt8) : Inv (s.receive b).2 := by
  obtain ⟨-, hgone, hkept, -⟩ := s.handler.receivedNGPPacket_spec b
  refine ⟨hs.counter, fun q hq => ?_, ?_, fun q hq => ?_, fun k m hk => ?_⟩
  · obtain ⟨r, hr, rfl⟩ := List.mem_map.mp hq
    rw [requestId_note]
    exact hs.issued r hr
  · have hmap : (s.receive b).2.requests.map Request.requestId =
        s.requests.map Request.requestId := by
      simp [receive, Function.comp_def]
    rw [hmap]
    exact hs.ids
  · obtain ⟨r, hr, rfl⟩ := List.mem_map.mp hq
    rw [requestId_note, reqID_note]
    exact hs.bytes r hr
  · have hne : k ≠ b.toUInt32 := by
      rintro rfl
      cases hgone.symm.trans hk
    obtain ⟨r, hr, hid⟩ := hs.current k m ((hkept k hne).symm.trans hk)
    obtain ⟨hr, hwaiting⟩ := mem_outstanding.mp hr
    have hbyte : r.reqID ≠ b := by
      rintro rfl
      exact hne (by rw [← hid, hs.requestId_eq hr])
    exact ⟨r, mem_outstanding.mpr ⟨List.mem_map.mpr ⟨r, hr, note_of_ne hbyte _⟩, hwaiting⟩, hid⟩

/-- Every step keeps the invariant. -/
theorem inv_step {s : Exchange ρ} {e : Event ρ} {s' : Exchange ρ} (hs : Inv s)
    (hstep : s.step e = some s') : Inv s' := by
  cases e with
  | issue m => exact inv_issue hs hstep
  | register n => exact inv_register hs hstep
  | transmit n => exact inv_transmit hs hstep
  | reply n =>
    obtain ⟨b, -, rfl⟩ := step_reply hstep
    exact inv_receive hs b
  | unsolicited b =>
    obtain rfl := Option.some.inj hstep
    exact inv_receive hs b
  | registerReceiver r m | deregisterReceiver m =>
    obtain rfl := Option.some.inj hstep
    exact ⟨hs.counter, hs.issued, hs.ids, hs.bytes, hs.current⟩

/-! ## Stray replies -/

/-- A stray reply goes to the receiver of the router. -/
theorem receive_of_stray {s : Exchange ρ} (hs : Inv s) {b : UInt8} (hstray : s.Stray b) :
    s.handler.m_requestMap.lookup b.toUInt32 = none ∧
      (s.receive b).1 = s.handler.registered CV3_MSG_ROUTER := by
  have hnone : s.handler.m_requestMap.lookup b.toUInt32 = none := by
    refine Option.eq_none_iff_forall_ne_some.mpr fun m hm => ?_
    obtain ⟨r, hr, hid⟩ := hs.current _ m hm
    refine hstray r hr ?_
    rw [hs.bytes r (mem_outstanding.mp hr).1, hid]
    simp
  refine ⟨hnone, ?_⟩
  have hcalled := (s.handler.receivedNGPPacket_spec b).1
  rw [hnone] at hcalled
  exact hcalled

/-- A reply is noted without effect on the requests that wait, if none of them has its id. -/
private theorem filter_note {b : UInt8} {l : List Request}
    (h : ∀ r ∈ l, r.stage = .waiting → r.reqID ≠ b) (called : Bool) :
    (l.map (Request.note b called)).filter (fun r => r.stage = .waiting) =
      l.filter fun r => r.stage = .waiting := by
  induction l with
  | nil => rfl
  | cons r l ih =>
    obtain ⟨hr, hl⟩ := List.forall_mem_cons.mp h
    rw [List.map_cons, List.filter_cons, List.filter_cons, ih hl]
    by_cases hbyte : r.reqID = b
    · have hstage : r.stage ≠ .waiting := fun hwaiting => hr hwaiting hbyte
      have hnote : (r.note b called).stage = r.stage := by
        rw [Request.note, if_pos hbyte]
        exact if_neg hstage
      rw [hnote, if_neg (by simpa using hstage), if_neg (by simpa using hstage)]
    · rw [note_of_ne hbyte]

/-- **A stray reply is rejected exactly if the router has no receiver.** -/
theorem rejected_iff {s : Exchange ρ} (hs : Inv s) {b : UInt8} (hstray : s.Stray b) :
    s.Rejected b ↔ s.handler.registered CV3_MSG_ROUTER = none := by
  obtain ⟨hnone, hcalled⟩ := receive_of_stray hs hstray
  obtain ⟨-, hgone, hkept, hregistered⟩ := s.handler.receivedNGPPacket_spec b
  constructor
  · intro h
    exact hcalled.symm.trans h.uncalled
  · intro h
    refine ⟨hcalled.trans h, ?_, fun k => ?_, hregistered⟩
    · exact filter_note (fun r hr hwaiting => hstray r (mem_outstanding.mpr ⟨hr, hwaiting⟩)) _
    · by_cases hk : k = b.toUInt32
      · rw [hk, hnone]
        exact hgone
      · exact hkept k hk

/-! ## Deliveries -/

/-- No request has caused more than one delivery, and one that is not answered none. -/
def Once (s : Exchange ρ) : Prop :=
  ∀ r ∈ s.requests, r.deliveries ≤ 1 ∧ (r.stage ≠ .answered → r.deliveries = 0)

/-- A reply keeps the count: a stray one is not delivered, another one to the request that waits
for it. -/
theorem once_receive {s : Exchange ρ} (hs : Inv s) (honce : s.Once) {b : UInt8}
    (hok : s.Stray b → s.handler.registered CV3_MSG_ROUTER = none) : (s.receive b).2.Once := by
  intro q hq
  rw [requests_receive] at hq
  obtain ⟨r, hr, rfl⟩ := List.mem_map.mp hq
  obtain ⟨hle, hzero⟩ := honce r hr
  by_cases hbyte : r.reqID = b
  · rw [Request.note, if_pos hbyte]
    by_cases hwaiting : r.stage = .waiting
    · have hnone : r.deliveries = 0 := hzero (by simp [hwaiting])
      refine ⟨?_, fun h => absurd (if_pos hwaiting) h⟩
      have := Bool.toNat_le (s.receive b).1.isSome
      change r.deliveries + (s.receive b).1.isSome.toNat ≤ 1
      omega
    · have hstray : s.Stray b := by
        intro r' hr' hbyte'
        obtain ⟨hr', hwaiting'⟩ := mem_outstanding.mp hr'
        obtain rfl := hs.eq_of_reqID hr hr' (hbyte.trans hbyte'.symm)
        exact hwaiting hwaiting'
      have huncalled : (s.receive b).1 = none := (receive_of_stray hs hstray).2.trans (hok hstray)
      rw [huncalled, if_neg hwaiting]
      exact ⟨hle, hzero⟩
  · rw [note_of_ne hbyte]
    exact ⟨hle, hzero⟩

/-- Changing a request without changing its count or answering it keeps the count. -/
private theorem once_set {s : Exchange ρ} (honce : s.Once) {n : ℕ} {r r' : Request}
    (hr : s.requests[n]? = some r) (hdeliveries : r'.deliveries = r.deliveries)
    (hstage : r'.stage ≠ .answered → r.stage ≠ .answered) :
    ∀ q ∈ s.requests.set n r', q.deliveries ≤ 1 ∧ (q.stage ≠ .answered → q.deliveries = 0) := by
  intro q hq
  rcases List.mem_or_eq_of_mem_set hq with hq | rfl
  · exact honce q hq
  · obtain ⟨hle, hzero⟩ := honce r (List.mem_of_getElem? hr)
    rw [hdeliveries]
    exact ⟨hle, fun h => hzero (hstage h)⟩

/-- A step that brings no stray reply to the router keeps the count. -/
theorem once_step {s : Exchange ρ} {e : Event ρ} {s' : Exchange ρ} (hs : Inv s) (honce : s.Once)
    (hok : s.RouterAbsent e) (hstep : s.step e = some s') : s'.Once := by
  cases e with
  | issue m =>
    obtain ⟨-, rfl⟩ := step_issue hstep
    intro r hr
    rcases List.mem_append.mp hr with hr | hr
    · exact honce r hr
    · obtain rfl := List.mem_singleton.mp hr
      exact ⟨Nat.zero_le _, fun _ => rfl⟩
  | register n =>
    obtain ⟨r, hr, hstage, rfl⟩ := step_register hstep
    exact once_set honce hr rfl fun _ => by simp [hstage]
  | transmit n =>
    obtain ⟨r, hr, rfl⟩ := step_transmit hstep
    exact once_set honce hr rfl id
  | reply n =>
    obtain ⟨b, hb, rfl⟩ := step_reply hstep
    exact once_receive hs honce (hok b hb)
  | unsolicited b =>
    obtain rfl := Option.some.inj hstep
    exact once_receive hs honce (hok b rfl)
  | registerReceiver r m | deregisterReceiver m =>
    obtain rfl := Option.some.inj hstep
    exact honce

/-- **When stray replies are rejected**: in exactly the runs in which the router has no receiver
whenever one arrives.  In these no request causes more than one delivery. -/
theorem strays_rejected_iff (receivers : AList fun _ : ReceiverModuleId => Option ρ)
    (es : List (Event ρ)) :
    (AllSteps step StrayRejected (init receivers) es ∧
        ∀ bs s, bs <+: es → run step (init receivers) bs = some s → s.AtMostOnce) ↔
      AllSteps step RouterAbsent (init receivers) es := by
  have hrejected : AllSteps step StrayRejected (init receivers) es ↔
      AllSteps step RouterAbsent (init receivers) es := by
    have hstep : ∀ (s : Exchange ρ) (e : Event ρ) (s' : Exchange ρ), Inv s → s.RouterAbsent e →
        s.step e = some s' → Inv s' := fun s e s' hs _ h => inv_step hs h
    refine AllSteps.iff_of_inv hstep (fun s e hs => ?_) (inv_init receivers)
    exact forall₂_congr fun b hb => forall_congr' fun hstray => rejected_iff hs hstray
  rw [hrejected, and_iff_left_iff_imp]
  intro hok bs s hbs hrun
  obtain ⟨cs, rfl⟩ := hbs
  have hstep : ∀ (s : Exchange ρ) (e : Event ρ) (s' : Exchange ρ), Inv s ∧ Once s →
      s.RouterAbsent e → s.step e = some s' → Inv s' ∧ Once s' :=
    fun s e s' hs hok h => ⟨inv_step hs.1 h, once_step hs.1 hs.2 hok h⟩
  have hinit : Once (init receivers) := fun r hr => absurd hr List.not_mem_nil
  have honce := run_invariant hstep ⟨inv_init receivers, hinit⟩ hok.of_append hrun
  exact fun r hr => (honce.2 r hr).1

/-- With the receivers of both modules registered, the second reply to a request of the test module
goes to the router. -/
theorem not_strays_rejected_duplicate :
    ¬∀ es : List (Event ℕ), AllSteps step StrayRejected (init System.bothReceivers) es ∧
      ∀ bs s, bs <+: es → run step (init System.bothReceivers) bs = some s → s.AtMostOnce := by
  intro h
  have hrun : (run step (init System.bothReceivers)
      [.issue REGTEST_SERVER_CONNECTION_TEST, .register 0, .transmit 0, .reply 0, .reply 0]).map
        (fun s => s.requests.map Request.deliveries) = some [2] := by decide
  obtain ⟨s, hs, hdeliveries⟩ := Option.map_eq_some_iff.mp hrun
  have honce := (h _).2 _ s List.prefix_rfl hs
  obtain ⟨r, hr, htwo⟩ := List.mem_map.mp (hdeliveries ▸ List.mem_singleton_self 2 :
    2 ∈ s.requests.map Request.deliveries)
  have := honce r hr
  omega

end Exchange

end CppCore.ServerCom
