import CppCore.Lib.Run
import CppCore.Ngp.NavPacket
import Mathlib.Data.List.AList

/-!
# Requests and replies

`ServerHandler` gives every request an id, remembers under it which module sent the request, and
hands a reply to the receiver registered for the module it finds under the id of the reply.  The
id is a thirty-two-bit counter; the packet, and so the reply, carries its lowest byte.

A `std::map` is an association list.  Its `operator[]` inserts a default for a key that is
absent: `CV3_MSG_ROUTER` in the request map, the null pointer in the receiver map.

## Main definitions

* `ServerHandler`, `ServerHandler.receivedNGPPacket` — the maps and what a reply does.
* `System`, `System.step` — any number of calls of `sendNGPMessage` in progress, and replies.
* `System.Inv` — the invariant; one lemma for each action says it is kept.
* `System.delivered_correct` — when every reply reaches the module that sent the request.
-/

namespace CppCore.ServerCom

open Lib Ngp

/-- `ReceiverModuleId`. -/
inductive ReceiverModuleId
  /-- Used by MessageRouter; the value `0`. -/
  | CV3_MSG_ROUTER
  /-- A test class; the value `1000`. -/
  | REGTEST_SERVER_CONNECTION_TEST
  deriving DecidableEq, Repr

open ReceiverModuleId

/-- `RequestIdGenerator`, `RequestMapHolder` and `ReceiverMapHolder` of a server handler; `ρ` are
the receiver objects. -/
structure ServerHandler (ρ : Type) where
  /-- The last id that was handed out. -/
  m_requestId : UInt32
  /-- The map of requests and which receiver should get the reply. -/
  m_requestMap : AList fun _ : UInt32 => ReceiverModuleId
  /-- The receivers of the modules, `none` for the null pointer. -/
  m_messageReceiverMap : AList fun _ : ReceiverModuleId => Option ρ

variable {ρ : Type}

namespace ServerHandler

/-- `RequestIdGenerator::generateNewRequestId`. -/
def generateNewRequestId (h : ServerHandler ρ) : UInt32 × ServerHandler ρ :=
  (h.m_requestId + 1, { h with m_requestId := h.m_requestId + 1 })

/-- `RequestMapHolder::registerReceiverId`. -/
def registerReceiverId (h : ServerHandler ρ) (reqId : UInt32) (receiverId : ReceiverModuleId) :
    ServerHandler ρ :=
  { h with m_requestMap := h.m_requestMap.insert reqId receiverId }

/-- `RequestMapHolder::getAndRemoveReceiver`. -/
def getAndRemoveReceiver (h : ServerHandler ρ) (reqId : UInt32) :
    ReceiverModuleId × ServerHandler ρ :=
  let res := (h.m_requestMap.lookup reqId).getD CV3_MSG_ROUTER
  (res, { h with m_requestMap := (h.m_requestMap.insert reqId res).erase reqId })

/-- `ReceiverMapHolder::registerNGPMessageReceiver`. -/
def registerNGPMessageReceiver (h : ServerHandler ρ) (messageReceiver : ρ)
    (receiverId : ReceiverModuleId) : ServerHandler ρ :=
  { h with m_messageReceiverMap := h.m_messageReceiverMap.insert receiverId (some messageReceiver) }

/-- `ReceiverMapHolder::deregisterNGPMessageReceiver`. -/
def deregisterNGPMessageReceiver (h : ServerHandler ρ) (receiverId : ReceiverModuleId) :
    ServerHandler ρ :=
  { h with m_messageReceiverMap := h.m_messageReceiverMap.erase receiverId }

/-- `ReceiverMapHolder::getMessageReceiver`. -/
def getMessageReceiver (h : ServerHandler ρ) (receiverId : ReceiverModuleId) :
    Option ρ × ServerHandler ρ :=
  let res := (h.m_messageReceiverMap.lookup receiverId).getD none
  (res, { h with m_messageReceiverMap := h.m_messageReceiverMap.insert receiverId res })

/-- `ServerHandler::receivedNGPPacket` for a reply with the request id `reqID`: the receiver it
calls, if it calls one. -/
def receivedNGPPacket (h : ServerHandler ρ) (reqID : UInt8) : Option ρ × ServerHandler ρ :=
  let (receiverModuleId, h) := h.getAndRemoveReceiver reqID.toUInt32
  h.getMessageReceiver receiverModuleId

/-- The receiver registered for a module. -/
def registered (h : ServerHandler ρ) (m : ReceiverModuleId) : Option ρ :=
  (h.m_messageReceiverMap.lookup m).getD none

/-- **What a reply does**: the module found under the key gets it, and the key is gone. -/
theorem receivedNGPPacket_spec (h : ServerHandler ρ) (reqID : UInt8) :
    (h.receivedNGPPacket reqID).1 =
        h.registered ((h.m_requestMap.lookup reqID.toUInt32).getD CV3_MSG_ROUTER) ∧
      (h.receivedNGPPacket reqID).2.m_requestMap.lookup reqID.toUInt32 = none ∧
      (∀ k, k ≠ reqID.toUInt32 →
        (h.receivedNGPPacket reqID).2.m_requestMap.lookup k = h.m_requestMap.lookup k) ∧
      (∀ m, (h.receivedNGPPacket reqID).2.registered m = h.registered m) := by
  refine ⟨rfl, AList.lookup_erase _ _, fun k hk => ?_, fun m => ?_⟩
  · exact (AList.lookup_erase_ne hk).trans (AList.lookup_insert_ne hk)
  · simp only [receivedNGPPacket, getAndRemoveReceiver, getMessageReceiver, registered]
    by_cases hm : m = (h.m_requestMap.lookup reqID.toUInt32).getD CV3_MSG_ROUTER
    · rw [hm, AList.lookup_insert]
      rfl
    · rw [AList.lookup_insert_ne hm]

end ServerHandler

/-! ## Calls in progress -/

/-- How far a call of `sendNGPMessage` has come. -/
inductive Phase
  /-- The packet has its request id. -/
  | issued
  /-- The module is registered for the reply. -/
  | registered
  /-- The packet has been sent, by this or another call, and not been answered. -/
  | outstanding
  deriving DecidableEq, Repr

/-- A request that has not been answered. -/
structure Call where
  /-- The id it was given. -/
  requestId : UInt32
  /-- The module it is for. -/
  receiverId : ReceiverModuleId
  /-- The request id in its packet. -/
  reqID : UInt8
  /-- How far it has come. -/
  phase : Phase
  deriving DecidableEq, Repr

/-- A reply that has been received: who sent the request and who was called. -/
structure Delivery (ρ : Type) where
  /-- The module that sent the request. -/
  receiverId : ReceiverModuleId
  /-- The receiver that was called. -/
  receiver : Option ρ
  deriving DecidableEq, Repr

/-- The handler, the requests in progress and the replies received so far. -/
structure System (ρ : Type) where
  /-- The handler. -/
  handler : ServerHandler ρ
  /-- The requests in progress. -/
  calls : List Call
  /-- The replies received. -/
  delivered : List (Delivery ρ)

/-- What can happen next; calls are named by their position. -/
inductive Action
  /-- A module calls `sendNGPMessage`, which generates an id and puts it into the packet. -/
  | issue (receiverId : ReceiverModuleId)
  /-- A call registers its module for the reply. -/
  | register (i : ℕ)
  /-- The packet of a call is sent. -/
  | transmit (i : ℕ)
  /-- The reply to a call arrives, with the request id of its packet. -/
  | reply (i : ℕ)
  deriving DecidableEq, Repr

namespace System

/-- A handler at the start: no id handed out, no request. -/
def init (m_messageReceiverMap : AList fun _ : ReceiverModuleId => Option ρ) : System ρ :=
  ⟨⟨0, ∅, m_messageReceiverMap⟩, [], []⟩

/-- One step.  Only modules with a registered receiver send, and there are never more than 255
requests in progress. -/
def step (s : System ρ) : Action → Option (System ρ)
  | .issue receiverId =>
    if s.calls.length < 255 ∧ (s.handler.registered receiverId).isSome then
      let (requestId, handler) := s.handler.generateNewRequestId
      let reqID := ((NavPacket.new NavPacket.getCurrentProtoVer 0 0 0).setReqID
        requestId.toUInt8).m_reqID
      some { s with handler, calls := s.calls ++ [⟨requestId, receiverId, reqID, .issued⟩] }
    else none
  | .register i =>
    match s.calls[i]? with
    | some c =>
      if c.phase = .issued then
        some { s with
          handler := s.handler.registerReceiverId c.requestId c.receiverId
          calls := s.calls.set i { c with phase := .registered } }
      else none
    | none => none
  | .transmit i =>
    match s.calls[i]? with
    | some c =>
      if c.phase = .registered then
        some { s with calls := s.calls.set i { c with phase := .outstanding } }
      else none
    | none => none
  | .reply i =>
    match s.calls[i]? with
    | some c =>
      if c.phase = .outstanding then
        let (receiver, handler) := s.handler.receivedNGPPacket c.reqID
        some ⟨handler, s.calls.eraseIdx i, s.delivered ++ [⟨c.receiverId, receiver⟩]⟩
      else none
    | none => none

/-! ## What a step can do -/

theorem step_issue {s s' : System ρ} {receiverId : ReceiverModuleId}
    (h : s.step (.issue receiverId) = some s') :
    (s.handler.registered receiverId).isSome ∧
      s' = { s with
        handler := { s.handler with m_requestId := s.handler.m_requestId + 1 }
        calls := s.calls ++ [⟨s.handler.m_requestId + 1, receiverId,
          (s.handler.m_requestId + 1).toUInt8, .issued⟩] } := by
  simp only [step] at h
  split at h
  · rename_i hguard
    exact ⟨hguard.2, (Option.some.inj h).symm⟩
  · cases h

theorem step_register {s s' : System ρ} {i : ℕ} (h : s.step (.register i) = some s') :
    ∃ c, s.calls[i]? = some c ∧ c.phase = .issued ∧
      s' = { s with
        handler := s.handler.registerReceiverId c.requestId c.receiverId
        calls := s.calls.set i { c with phase := .registered } } := by
  simp only [step] at h
  split at h
  · rename_i c hc
    split at h
    · rename_i hphase
      exact ⟨c, hc, hphase, (Option.some.inj h).symm⟩
    · cases h
  · cases h

theorem step_transmit {s s' : System ρ} {i : ℕ} (h : s.step (.transmit i) = some s') :
    ∃ c, s.calls[i]? = some c ∧ c.phase = .registered ∧
      s' = { s with calls := s.calls.set i { c with phase := .outstanding } } := by
  simp only [step] at h
  split at h
  · rename_i c hc
    split at h
    · rename_i hphase
      exact ⟨c, hc, hphase, (Option.some.inj h).symm⟩
    · cases h
  · cases h

theorem step_reply {s s' : System ρ} {i : ℕ} (h : s.step (.reply i) = some s') :
    ∃ c, s.calls[i]? = some c ∧ c.phase = .outstanding ∧
      s' = ⟨(s.handler.receivedNGPPacket c.reqID).2, s.calls.eraseIdx i,
        s.delivered ++ [⟨c.receiverId, (s.handler.receivedNGPPacket c.reqID).1⟩]⟩ := by
  simp only [step] at h
  split at h
  · rename_i c hc
    split at h
    · rename_i hphase
      exact ⟨c, hc, hphase, (Option.some.inj h).symm⟩
    · cases h
  · cases h

/-! ## The invariant -/

/-- A step the scheme is made for.  An id that is handed out is not in use.  A request that is
answered has an id below 256; or it is the router's, and so is every request in progress whose
id is the byte in its packet. -/
def Faithful (s : System ρ) : Action → Prop
  | .issue _ => ∀ c ∈ s.calls, c.requestId ≠ s.handler.m_requestId + 1
  | .reply i => ∀ c ∈ s.calls[i]?, c.requestId < 256 ∨
      (c.receiverId = CV3_MSG_ROUTER ∧
        ∀ c' ∈ s.calls, c'.requestId = c.requestId.toUInt8.toUInt32 →
          c'.receiverId = CV3_MSG_ROUTER)
  | _ => True

instance (s : System ρ) (a : Action) : Decidable (s.Faithful a) := by
  cases a <;> unfold Faithful <;> infer_instance

/-- What the map says about a request with an id below 256: its module, or nothing if that is
the default anyway. -/
def Entered (s : System ρ) (c : Call) : Prop :=
  s.handler.m_requestMap.lookup c.requestId = some c.receiverId ∨
    (s.handler.m_requestMap.lookup c.requestId = none ∧ c.receiverId = CV3_MSG_ROUTER)

/-- A reply has reached the receiver of the module that sent the request. -/
def Correct (s : System ρ) (d : Delivery ρ) : Prop :=
  ∃ r, s.handler.registered d.receiverId = some r ∧ d.receiver = some r

/-- What holds in every state reached by faithful steps. -/
structure Inv (s : System ρ) : Prop where
  /-- Ids in use are distinct. -/
  ids : (s.calls.map Call.requestId).Nodup
  /-- Packets carry the lowest byte of their id. -/
  bytes : ∀ c ∈ s.calls, c.reqID = c.requestId.toUInt8
  /-- Modules that send have a receiver. -/
  senders : ∀ c ∈ s.calls, (s.handler.registered c.receiverId).isSome
  /-- Registered requests with ids below 256 are found. -/
  entered : ∀ c ∈ s.calls, c.phase ≠ .issued → c.requestId < 256 → s.Entered c
  /-- What is found under a key below 256 is a registered request. -/
  current : ∀ k < 256, ∀ m, s.handler.m_requestMap.lookup k = some m →
    ∃ c ∈ s.calls, c.requestId = k ∧ c.phase ≠ .issued ∧ c.receiverId = m
  /-- Every reply so far has reached its receiver. -/
  correct : ∀ d ∈ s.delivered, s.Correct d

theorem toUInt32_toUInt8_of_lt {x : UInt32} (h : x < 256) : x.toUInt8.toUInt32 = x := by
  apply UInt32.toNat_inj.mp
  have hx : x.toNat < 256 := h
  simpa using Nat.mod_eq_of_lt hx

theorem toUInt32_lt (b : UInt8) : b.toUInt32 < 256 := by
  have hb := b.toNat_lt
  exact UInt32.lt_iff_toNat_lt.mpr (by simpa using hb)

theorem inv_init (receivers : AList fun _ : ReceiverModuleId => Option ρ) :
    Inv (init receivers) where
  ids := by simp [init]
  bytes := by simp [init]
  senders := by simp [init]
  entered := by simp [init]
  current := by simp [init]
  correct := by simp [init]

theorem inv_issue {s s' : System ρ} {m : ReceiverModuleId} (hs : Inv s)
    (hok : s.Faithful (.issue m)) (hstep : s.step (.issue m) = some s') : Inv s' := by
  obtain ⟨hregistered, rfl⟩ := step_issue hstep
  refine ⟨?_, ?_, ?_, ?_, ?_, hs.correct⟩
  · rw [List.map_append, List.map_singleton]
    refine List.nodup_append.mpr ⟨hs.ids, by simp, ?_⟩
    intro id hid id' hid'
    obtain ⟨c, hc, rfl⟩ := List.mem_map.mp hid
    obtain rfl := List.mem_singleton.mp hid'
    exact hok c hc
  · intro c hc
    rcases List.mem_append.mp hc with hc | hc
    · exact hs.bytes c hc
    · obtain rfl := List.mem_singleton.mp hc
      rfl
  · intro c hc
    rcases List.mem_append.mp hc with hc | hc
    · exact hs.senders c hc
    · obtain rfl := List.mem_singleton.mp hc
      exact hregistered
  · intro c hc hphase
    rcases List.mem_append.mp hc with hc | hc
    · exact hs.entered c hc hphase
    · obtain rfl := List.mem_singleton.mp hc
      exact absurd rfl hphase
  · intro k hk m hm
    obtain ⟨c, hc, hrest⟩ := hs.current k hk m hm
    exact ⟨c, List.mem_append_left _ hc, hrest⟩

/-- Moving a call to another phase keeps everything that does not look at its phase. -/
private theorem forall_set {l : List Call} {i : ℕ} {c : Call} {p : Phase} {P : Call → Prop}
    (hP : P { c with phase := p }) (hall : ∀ c' ∈ l, P c') :
    ∀ c' ∈ l.set i { c with phase := p }, P c' := by
  intro c' hc'
  rcases List.mem_or_eq_of_mem_set hc' with h | rfl
  · exact hall c' h
  · exact hP

theorem inv_register {s s' : System ρ} {i : ℕ} (hs : Inv s)
    (hstep : s.step (.register i) = some s') : Inv s' := by
  obtain ⟨c, hc, hphase, rfl⟩ := step_register hstep
  have hmem : c ∈ s.calls := List.mem_of_getElem? hc
  obtain ⟨hi, -⟩ := List.getElem?_eq_some_iff.mp hc
  refine ⟨?_, ?_, ?_, ?_, ?_, hs.correct⟩
  · have hids := map_set_of_key Call.requestId hc (b := { c with phase := .registered }) rfl
    exact hids ▸ hs.ids
  · exact forall_set (hs.bytes c hmem) hs.bytes
  · exact forall_set (hs.senders c hmem) hs.senders
  · intro c' hc' hphase' hlt
    rcases List.mem_or_eq_of_mem_set hc' with h | rfl
    · have hne : c'.requestId ≠ c.requestId := by
        intro hid
        have heq := eq_of_key hs.ids h hmem hid
        exact hphase' (heq ▸ hphase)
      have hentered := hs.entered c' h hphase' hlt
      simp only [Entered] at hentered ⊢
      rwa [ServerHandler.registerReceiverId, AList.lookup_insert_ne hne]
    · exact Or.inl (AList.lookup_insert _)
  · intro k hk m hm
    by_cases hkey : k = c.requestId
    · subst hkey
      have hm' : some c.receiverId = some m := by
        rw [← hm, ServerHandler.registerReceiverId, AList.lookup_insert]
      exact ⟨_, List.mem_set hi _, rfl, by simp, Option.some.inj hm'⟩
    · rw [ServerHandler.registerReceiverId, AList.lookup_insert_ne hkey] at hm
      obtain ⟨c', hc', hid, hphase', hmod⟩ := hs.current k hk m hm
      exact ⟨c', mem_set_of_ne hc hc' (fun h => hphase' (h ▸ hphase)), hid, hphase', hmod⟩

theorem inv_transmit {s s' : System ρ} {i : ℕ} (hs : Inv s)
    (hstep : s.step (.transmit i) = some s') : Inv s' := by
  obtain ⟨c, hc, hphase, rfl⟩ := step_transmit hstep
  have hmem : c ∈ s.calls := List.mem_of_getElem? hc
  obtain ⟨hi, -⟩ := List.getElem?_eq_some_iff.mp hc
  have hreg : c.phase ≠ .issued := by simp [hphase]
  refine ⟨?_, ?_, ?_, ?_, ?_, hs.correct⟩
  · have hids := map_set_of_key Call.requestId hc (b := { c with phase := .outstanding }) rfl
    exact hids ▸ hs.ids
  · exact forall_set (hs.bytes c hmem) hs.bytes
  · exact forall_set (hs.senders c hmem) hs.senders
  · exact forall_set (fun _ => hs.entered c hmem hreg) hs.entered
  · intro k hk m hm
    obtain ⟨c', hc', hid, hphase', hmod⟩ := hs.current k hk m hm
    by_cases hcall : c' = c
    · subst hcall
      exact ⟨_, List.mem_set hi _, hid, by simp, hmod⟩
    · exact ⟨c', mem_set_of_ne hc hc' hcall, hid, hphase', hmod⟩

/-- **A faithful reply reaches the module that sent the request.** -/
theorem receivedNGPPacket_correct {s : System ρ} {i : ℕ} {c : Call} (hs : Inv s)
    (hok : s.Faithful (.reply i)) (hc : s.calls[i]? = some c) (hphase : c.phase = .outstanding) :
    (s.handler.receivedNGPPacket c.reqID).1 = s.handler.registered c.receiverId := by
  have hmem : c ∈ s.calls := List.mem_of_getElem? hc
  obtain ⟨hreceiver, -, -, -⟩ := s.handler.receivedNGPPacket_spec c.reqID
  rw [hreceiver, hs.bytes c hmem]
  rcases hok c hc with hlt | ⟨hrouter, hsame⟩
  · rw [toUInt32_toUInt8_of_lt hlt]
    rcases hs.entered c hmem (by simp [hphase]) hlt with h | ⟨h, hrouter⟩
    · rw [h, Option.getD_some]
    · rw [h, Option.getD_none, hrouter]
  · rw [hrouter]
    cases hlookup : s.handler.m_requestMap.lookup c.requestId.toUInt8.toUInt32 with
    | none => rfl
    | some m =>
      obtain ⟨c', hc', hid, -, rfl⟩ := hs.current _ (toUInt32_lt _) m hlookup
      rw [Option.getD_some, hsame c' hc' hid]

/-- A request that goes on while another one is answered has another key than the one looked up,
or is the router's. -/
private theorem router_of_key {s : System ρ} {i : ℕ} {c c' : Call} (hs : Inv s)
    (hok : s.Faithful (.reply i)) (hc : s.calls[i]? = some c) (hc' : c' ∈ s.calls)
    (hne : c'.requestId ≠ c.requestId) (hid : c'.requestId = c.reqID.toUInt32) :
    c'.receiverId = CV3_MSG_ROUTER := by
  rw [hs.bytes c (List.mem_of_getElem? hc)] at hid
  rcases hok c hc with hlt | ⟨-, hsame⟩
  · exact absurd (hid.trans (toUInt32_toUInt8_of_lt hlt)) hne
  · exact hsame c' hc' hid

theorem inv_reply {s s' : System ρ} {i : ℕ} (hs : Inv s) (hok : s.Faithful (.reply i))
    (hstep : s.step (.reply i) = some s') : Inv s' := by
  obtain ⟨c, hc, hphase, rfl⟩ := step_reply hstep
  have hmem : c ∈ s.calls := List.mem_of_getElem? hc
  obtain ⟨-, hgone, hkept, hreg⟩ := s.handler.receivedNGPPacket_spec c.reqID
  have hleft {c' : Call} : c' ∈ s.calls.eraseIdx i ↔
      c' ∈ s.calls ∧ c'.requestId ≠ c.requestId := mem_eraseIdx_iff hs.ids hc
  refine ⟨nodup_eraseIdx hs.ids, fun c' h => hs.bytes c' (hleft.mp h).1, ?_, ?_, ?_, ?_⟩
  · intro c' h
    rw [hreg]
    exact hs.senders c' (hleft.mp h).1
  · intro c' h hphase' hlt
    obtain ⟨hc', hne⟩ := hleft.mp h
    by_cases hid : c'.requestId = c.reqID.toUInt32
    · exact Or.inr ⟨by rw [hid, hgone], router_of_key hs hok hc hc' hne hid⟩
    · have hentered := hs.entered c' hc' hphase' hlt
      simp only [Entered] at hentered ⊢
      rwa [hkept _ hid]
  · intro k hk m hm
    have hne : k ≠ c.reqID.toUInt32 := by
      intro h
      rw [h, hgone] at hm
      cases hm
    rw [hkept k hne] at hm
    obtain ⟨c', hc', hid, hphase', hmod⟩ := hs.current k hk m hm
    refine ⟨c', hleft.mpr ⟨hc', ?_⟩, hid, hphase', hmod⟩
    intro h
    have hlt : c.requestId < 256 := by rwa [← h, hid]
    exact hne (by rw [← hid, h, hs.bytes c hmem, toUInt32_toUInt8_of_lt hlt])
  · intro d hd
    rw [Correct]
    rw [hreg]
    rcases List.mem_append.mp hd with hd | hd
    · exact hs.correct d hd
    · obtain rfl := List.mem_singleton.mp hd
      obtain ⟨r, hr⟩ := Option.isSome_iff_exists.mp (hs.senders c hmem)
      exact ⟨r, hr, (receivedNGPPacket_correct hs hok hc hphase).trans hr⟩

/-- One faithful step keeps the invariant. -/
theorem inv_step (s : System ρ) (a : Action) (s' : System ρ) (hs : Inv s) (hok : s.Faithful a)
    (hstep : s.step a = some s') : Inv s' := by
  cases a with
  | issue m => exact inv_issue hs hok hstep
  | register i => exact inv_register hs hstep
  | transmit i => exact inv_transmit hs hstep
  | reply i => exact inv_reply hs hok hstep

/-- **Replies reach the module that sent the request**, in every state of every run of faithful
steps: ids are not handed out twice at a time, and only the router gets replies to requests
whose id does not fit into a byte. -/
theorem delivered_correct {receivers : AList fun _ : ReceiverModuleId => Option ρ}
    {as : List Action} {s : System ρ} (hok : AllSteps step Faithful (init receivers) as)
    (hrun : run step (init receivers) as = some s) : ∀ d ∈ s.delivered, s.Correct d :=
  (run_invariant inv_step (inv_init receivers) hok hrun).correct

/-- Both modules with a receiver, `3` for the router and `7` for the test. -/
def bothReceivers : AList fun _ : ReceiverModuleId => Option ℕ :=
  ((∅ : AList fun _ : ReceiverModuleId => Option ℕ).insert CV3_MSG_ROUTER (some 3)).insert
    REGTEST_SERVER_CONNECTION_TEST (some 7)

/-- Two requests, answered out of order. -/
theorem delivered_correct_two :
    ∃ s : System ℕ, run step (init bothReceivers)
        [.issue CV3_MSG_ROUTER, .issue REGTEST_SERVER_CONNECTION_TEST, .register 1, .register 0,
          .transmit 0, .transmit 1, .reply 1, .reply 0] = some s ∧
      s.delivered.map Delivery.receiver = [some 7, some 3] ∧ ∀ d ∈ s.delivered, s.Correct d := by
  obtain ⟨s, hs⟩ := Option.isSome_iff_exists.mp (show (run step (init bothReceivers)
    [.issue CV3_MSG_ROUTER, .issue REGTEST_SERVER_CONNECTION_TEST, .register 1, .register 0,
      .transmit 0, .transmit 1, .reply 1, .reply 0]).isSome = true by decide)
  have hreceivers : (run step (init bothReceivers)
      [.issue CV3_MSG_ROUTER, .issue REGTEST_SERVER_CONNECTION_TEST, .register 1, .register 0,
        .transmit 0, .transmit 1, .reply 1, .reply 0]).map
          (fun s => s.delivered.map Delivery.receiver) = some [some 7, some 3] := by decide
  rw [hs] at hreceivers
  exact ⟨s, hs, Option.some.inj hreceivers, delivered_correct (by decide) hs⟩

/-! ## Requests one after the other -/

/-- A module sends a request and gets the reply. -/
def round (m : ReceiverModuleId) : List Action := [.issue m, .register 0, .transmit 0, .reply 0]

/-- No request is in progress, and nothing is entered under an id that fits into a byte. -/
structure Idle (s : System ρ) : Prop where
  /-- No request is in progress. -/
  calls : s.calls = []
  /-- The keys a reply can have are not entered. -/
  keys : ∀ k < 256, s.handler.m_requestMap.lookup k = none

/-- The module whose receiver gets the reply to a request of `m` with the id `id`, when no other
request is in progress. -/
def answered (id : UInt32) (m : ReceiverModuleId) : ReceiverModuleId :=
  if id < 256 then m else CV3_MSG_ROUTER

/-- **One round trip**: the reply goes to the module that sent the request as long as the id fits
into a byte, and to the router from then on. -/
theorem run_round {s : System ρ} (hs : Idle s) {m : ReceiverModuleId}
    (hm : (s.handler.registered m).isSome) :
    ∃ s', run step s (round m) = some s' ∧ Idle s' ∧
      s'.handler.m_requestId = s.handler.m_requestId + 1 ∧
      (∀ m', s'.handler.registered m' = s.handler.registered m') ∧
      s'.delivered = s.delivered ++
        [⟨m, s.handler.registered (answered (s.handler.m_requestId + 1) m)⟩] := by
  set id := s.handler.m_requestId + 1 with hid
  set h : ServerHandler ρ :=
    (⟨id, s.handler.m_requestMap, s.handler.m_messageReceiverMap⟩ :
      ServerHandler ρ).registerReceiverId id m with hh
  have hrun : run step s (round m) = some ⟨(h.receivedNGPPacket id.toUInt8).2, [],
      s.delivered ++ [⟨m, (h.receivedNGPPacket id.toUInt8).1⟩]⟩ := by
    simp [run, round, step, hs.calls, hm, ServerHandler.generateNewRequestId, NavPacket.setReqID,
      hh, hid]
  obtain ⟨hreceiver, hgone, hkept, hreg⟩ := h.receivedNGPPacket_spec id.toUInt8
  have hlookup : (h.m_requestMap.lookup id.toUInt8.toUInt32).getD CV3_MSG_ROUTER =
      answered id m := by
    rw [answered]
    split
    · rename_i hlt
      rw [toUInt32_toUInt8_of_lt hlt, hh, ServerHandler.registerReceiverId, AList.lookup_insert]
      rfl
    · rename_i hge
      have hne : id.toUInt8.toUInt32 ≠ id := fun h => hge (h ▸ toUInt32_lt _)
      rw [hh, ServerHandler.registerReceiverId, AList.lookup_insert_ne hne,
        hs.keys _ (toUInt32_lt _)]
      rfl
  refine ⟨_, hrun, ⟨rfl, fun k hk => ?_⟩, rfl, hreg, ?_⟩
  · rcases eq_or_ne k id.toUInt8.toUInt32 with rfl | hne
    · exact hgone
    · have hne' : k ≠ id := fun h => hne (by rw [h, toUInt32_toUInt8_of_lt (h ▸ hk)])
      rw [hkept k hne, hh, ServerHandler.registerReceiverId, AList.lookup_insert_ne hne']
      exact hs.keys k hk
  · rw [hreceiver, hlookup]
    rfl

/-- Round trips of one module keep the handler idle and count its ids. -/
theorem run_rounds {s : System ρ} (hs : Idle s) {m : ReceiverModuleId}
    (hm : (s.handler.registered m).isSome) (n : ℕ) :
    ∃ s', run step s (List.replicate n (round m)).flatten = some s' ∧ Idle s' ∧
      s'.handler.m_requestId = s.handler.m_requestId + UInt32.ofNat n ∧
      ∀ m', s'.handler.registered m' = s.handler.registered m' := by
  induction n with
  | zero => exact ⟨s, rfl, hs, by simp, fun _ => rfl⟩
  | succ n ih =>
    obtain ⟨t, hrun, ht, hid, hreg⟩ := ih
    obtain ⟨t', hrun', ht', hid', hreg', -⟩ := run_round ht (m := m) (by rwa [hreg])
    refine ⟨t', ?_, ht', ?_, fun m' => (hreg' m').trans (hreg m')⟩
    · rw [List.replicate_succ', List.flatten_append, List.flatten_singleton, run_append, hrun]
      exact hrun'
    · rw [hid', hid, UInt32.add_assoc, UInt32.ofNat_add]
      rfl

/-- The test module sends 256 requests, each answered before the next: the last one has the id
256, its reply comes with the id 0, and the router's receiver gets it. -/
theorem not_delivered_correct_256 :
    ¬∀ as s, run step (init bothReceivers) as = some s → ∀ d ∈ s.delivered, s.Correct d := by
  intro h
  have hidle : Idle (init bothReceivers) := ⟨rfl, fun _ _ => rfl⟩
  obtain ⟨t, hrun, ht, hid, hreg⟩ :=
    run_rounds hidle (m := REGTEST_SERVER_CONNECTION_TEST) (by decide) 255
  obtain ⟨t', hrun', -, -, hreg', hdelivered⟩ :=
    run_round ht (m := REGTEST_SERVER_CONNECTION_TEST) (by rw [hreg]; decide)
  have hall : run step (init bothReceivers) ((List.replicate 255
      (round REGTEST_SERVER_CONNECTION_TEST)).flatten ++ round REGTEST_SERVER_CONNECTION_TEST) =
        some t' := by
    rw [run_append, hrun]
    exact hrun'
  have hmem : (⟨REGTEST_SERVER_CONNECTION_TEST, t.handler.registered
      (answered (t.handler.m_requestId + 1) REGTEST_SERVER_CONNECTION_TEST)⟩ : Delivery ℕ) ∈
        t'.delivered := by
    rw [hdelivered]
    exact List.mem_append_right _ (by simp)
  obtain ⟨r, hr, hcalled⟩ := h _ t' hall _ hmem
  rw [hreg', hreg] at hr
  rw [hid, hreg] at hcalled
  have hne : (init bothReceivers).handler.registered REGTEST_SERVER_CONNECTION_TEST ≠
      (init bothReceivers).handler.registered (answered
        ((init bothReceivers).handler.m_requestId + UInt32.ofNat 255 + 1)
        REGTEST_SERVER_CONNECTION_TEST) := by decide
  exact hne (hr.trans hcalled.symm)

end System

end CppCore.ServerCom
