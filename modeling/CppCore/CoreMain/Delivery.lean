import CppCore.Generator.ReplyPacket
import CppCore.ServerCom.ServerHandler
import CppCore.MessageRouter.RouterThread

/-!
# From the socket to the listeners

`createCore` starts the server handler, and with it the reader of a connection, then constructs the
message router and starts its thread.  From then on modules send requests for the router.  The
reader hands each packet to the server handler, which looks up the module and its receiver, and the
router puts it into the queue of its own thread.

The constructor of the router first registers it as the receiver of replies, and then creates the
queue, the condition variable and the mutex.  A packet that is handed over in between meets a
pointer without a value; so does the signal for it before the mutex is there.  With such a fault
the run ends.

The parts are those of the other modules: the loop of the reader, the maps of the server handler and
the threads of the router.  A system puts them together and lets them run in any order.

## Main definitions

* `Core`, `Core.step` — the parts, and one step of one of them.
* `Core.Inv` — where the packets of a stream are.
* `Core.delivered_in_order` — every packet is in one place, in the order of the stream.
* `Core.nothing_lost_iff` — which runs hand every packet to the router, without a fault.
* `Core.replies_in_order` — what the listeners get of the replies that were sent.
-/

namespace CppCore.CoreMain

open Lib Ngp ServerCom ConnectionManager MessageRouter Generator
open ReceiverModuleId

variable {φ : Type}

/-! ## The parts together -/

/-- How far the constructor of the message router has got. -/
inductive Construction
  /-- It has not been called. -/
  | uncalled
  /-- Behind `registerNGPMessageReceiver(this, m_receiverId)`. -/
  | registered
  /-- Behind `new messageQueue_t()`. -/
  | queue
  /-- Behind `pal_thread_create_mutex()`; the condition variable is there as well. -/
  | mutex
  deriving DecidableEq

/-- `m_messageQueue` has a value. -/
def Construction.HasQueue (c : Construction) : Prop := c = .queue ∨ c = .mutex

instance (c : Construction) : Decidable c.HasQueue := inferInstanceAs (Decidable (_ ∨ _))

/-- The parts of a core that packets of type `φ` pass. -/
structure Core (φ : Type) where
  /-- The reader of the connection. -/
  reader : ConnectionReader φ
  /-- What the reader has read and not yet handed over. -/
  packet : Option φ
  /-- The server handler; the only receiver is the message router. -/
  m_srvHandler : ServerHandler Unit
  /-- How far the message router is constructed. -/
  construction : Construction
  /-- The message router. -/
  m_msgRouter : Router φ
  /-- The packets for which there was no receiver. -/
  lost : List φ
  /-- A queue or a mutex was used that was not there yet. -/
  fault : Bool

/-- What can happen next. -/
inductive Action (φ : Type)
  /-- The reader thread reads a packet. -/
  | receiveBlocking
  /-- The reader thread hands its packet over. -/
  | receivedNGPPacket
  /-- The constructor of the message router registers it. -/
  | registerNGPMessageReceiver
  /-- It creates the queue. -/
  | newMessageQueue
  /-- It creates the condition variable and the mutex. -/
  | createMutex
  /-- A module sends a request for the router: it gets an id. -/
  | generateNewRequestId
  /-- The router is registered under the id. -/
  | registerReceiverId (requestId : UInt32)
  /-- A thread of the router goes on, or a call of it begins or goes on. -/
  | router (a : MessageRouter.Action φ)

/-- The action is a push, which only the server handler does. -/
def isPush : MessageRouter.Action φ → Bool
  | .receivedNGPPacket _ => true
  | _ => false

/-- The action is a step of a call in progress.  While there is no mutex all calls are at their
locks. -/
def isCall (router : Router φ) : MessageRouter.Action φ → Bool
  | .call i => router.calls[i]?.isSome
  | _ => false

namespace Core

/-- `createCore` has started the server handler. -/
def start (s : Socket) (m_stayAlive : Bool) : Core φ :=
  ⟨.start s, none, ⟨0, ∅, ∅⟩, .uncalled, .init m_stayAlive, [], false⟩

/-- A step of one of the parts. -/
def stepPart (create : List UInt8 → Option φ) (reqID : φ → UInt8) (s : Core φ) :
    Action φ → Option (Core φ)
  | .receiveBlocking =>
    if s.reader.m_shouldRun ∧ s.packet.isNone then
      match s.reader.receivePacket create with
      | .ok (packet, reader) => some { s with reader, packet }
      | .error _ => none
    else none
  | .receivedNGPPacket =>
    match s.packet with
    | none => none
    | some packet =>
      let reader := { s.reader with received := s.reader.received ++ [packet] }
      match s.m_srvHandler.receivedNGPPacket (reqID packet) with
      | (none, m_srvHandler) =>
        some { s with reader, packet := none, m_srvHandler, lost := s.lost ++ [packet] }
      | (some _, m_srvHandler) =>
        if s.construction.HasQueue then
          (s.m_msgRouter.step (.receivedNGPPacket packet)).map fun m_msgRouter =>
            { s with reader, packet := none, m_srvHandler, m_msgRouter }
        else some { s with fault := true }
  | .registerNGPMessageReceiver =>
    if s.construction = .uncalled then
      some { s with
        construction := .registered
        m_srvHandler := s.m_srvHandler.registerNGPMessageReceiver () CV3_MSG_ROUTER }
    else none
  | .newMessageQueue =>
    if s.construction = .registered then some { s with construction := .queue } else none
  | .createMutex =>
    if s.construction = .queue then some { s with construction := .mutex } else none
  | .generateNewRequestId => some { s with m_srvHandler := s.m_srvHandler.generateNewRequestId.2 }
  | .registerReceiverId requestId =>
    some { s with m_srvHandler := s.m_srvHandler.registerReceiverId requestId CV3_MSG_ROUTER }
  | .router a =>
    if isPush a then none
    else if s.construction = .mutex then
      (s.m_msgRouter.step a).map fun m_msgRouter => { s with m_msgRouter }
    else if isCall s.m_msgRouter a then some { s with fault := true }
    else none

/-- One step, as long as there was no fault. -/
def step (create : List UInt8 → Option φ) (reqID : φ → UInt8) (s : Core φ) (a : Action φ) :
    Option (Core φ) :=
  if s.fault then none else s.stepPart create reqID a

variable {create : List UInt8 → Option φ} {reqID : φ → UInt8} {s s' : Core φ}

/-! ## The router and the server handler -/

/-- The packets of a router: dispatched ones, and behind them those in the queue. -/
def packets (router : Router φ) : List φ := router.dispatched ++ router.m_messageQueue

@[simp] theorem packets_signal (router : Router φ) : packets router.signal = packets router := by
  rw [Router.signal]
  split <;> rfl

/-- A step of a call does nothing to the packets. -/
theorem packets_stepCall {router router' : Router φ} {i : ℕ} {pc : CallPc}
    (h : router.stepCall i pc = some router') : packets router' = packets router := by
  cases pc with
  | pushed | start | stop =>
    obtain ⟨-, rfl⟩ := Router.acquire_eq_some h
    rfl
  | notify | stopSignal =>
    obtain rfl := Option.some.inj h
    exact packets_signal router
  | setAlive =>
    rw [Router.stepCall] at h
    split at h <;> obtain rfl := Option.some.inj h <;> rfl
  | startThread | clearAlive | unlock =>
    obtain rfl := Option.some.inj h
    rfl

/-- The router thread moves a packet from the queue to the dispatched ones. -/
theorem packets_stepRouter {router router' : Router φ} {pc : RouterPc}
    (h : router.stepRouter pc = some router') : packets router' = packets router := by
  cases pc with
  | new | parked | exited => cases h
  | loop | checkQueue | drain | unlock =>
    obtain rfl := Option.some.inj h
    rfl
  | tryPop =>
    rw [Router.stepRouter] at h
    split at h
    · obtain rfl := Option.some.inj h
      rfl
    · rename_i packet rest hqueue
      obtain rfl := Option.some.inj h
      rw [packets, packets, hqueue, List.append_assoc]
      rfl
  | lock | signalled =>
    rw [Router.stepRouter] at h
    split at h
    · cases h
    · obtain rfl := Option.some.inj h
      rfl
  | wait =>
    rw [Router.stepRouter] at h
    split at h <;> obtain rfl := Option.some.inj h <;> rfl

/-- **The router neither loses nor reorders packets**, whatever its threads do. -/
theorem packets_step {router router' : Router φ} {a : MessageRouter.Action φ}
    (ha : isPush a = false) (h : router.step a = some router') :
    packets router' = packets router := by
  cases a with
  | receivedNGPPacket packet => cases ha
  | startThread | stopThread =>
    obtain rfl := Option.some.inj h
    rfl
  | call i =>
    obtain ⟨pc, -, h⟩ := Router.step_call h
    exact packets_stepCall h
  | router => exact packets_stepRouter h
  | wakeup =>
    obtain ⟨-, rfl⟩ := Router.step_wakeup h
    rfl

/-- Every request is one of the router. -/
def Requests (handler : ServerHandler Unit) : Prop :=
  ∀ k m, handler.m_requestMap.lookup k = some m → m = CV3_MSG_ROUTER

/-- A server handler that sends requests for the router only finds the router for every reply. -/
theorem receiver_eq {handler : ServerHandler Unit} (hrequests : Requests handler) (id : UInt8) :
    (handler.receivedNGPPacket id).1 = handler.registered CV3_MSG_ROUTER := by
  rw [(handler.receivedNGPPacket_spec id).1]
  cases hfound : handler.m_requestMap.lookup id.toUInt32 with
  | none => rfl
  | some m =>
    obtain rfl := hrequests _ m hfound
    rfl

/-- Handing a packet over leaves a server handler that still does. -/
theorem requests_receivedNGPPacket {handler : ServerHandler Unit} (hrequests : Requests handler)
    (id : UInt8) : Requests (handler.receivedNGPPacket id).2 := by
  obtain ⟨-, hgone, hother, -⟩ := handler.receivedNGPPacket_spec id
  intro k m hk
  rcases eq_or_ne k id.toUInt32 with rfl | hne
  · cases hgone.symm.trans hk
  · exact hrequests k m ((hother k hne).symm.trans hk)

/-- Sending another request for the router leaves one that does. -/
theorem requests_registerReceiverId {handler : ServerHandler Unit} (hrequests : Requests handler)
    (requestId : UInt32) : Requests (handler.registerReceiverId requestId CV3_MSG_ROUTER) := by
  intro k m hk
  simp only [ServerHandler.registerReceiverId] at hk
  rcases eq_or_ne k requestId with rfl | hne
  · rw [AList.lookup_insert] at hk
    exact (Option.some.inj hk).symm
  · rw [AList.lookup_insert_ne hne] at hk
    exact hrequests k m hk

/-! ## What a step does -/

/-- The router has registered itself as the receiver of replies. -/
def Registered (s : Core φ) : Prop := s.m_srvHandler.registered CV3_MSG_ROUTER ≠ none

/-- The router is registered by its constructor. -/
theorem registered_registerNGPMessageReceiver (handler : ServerHandler Unit) :
    (handler.registerNGPMessageReceiver () CV3_MSG_ROUTER).registered CV3_MSG_ROUTER ≠ none := by
  simp [ServerHandler.registered, ServerHandler.registerNGPMessageReceiver]

/-- Behind a fault there is no step. -/
theorem step_eq_some {a : Action φ} :
    s.step create reqID a = some s' ↔ s.fault = false ∧ s.stepPart create reqID a = some s' := by
  rw [step]
  cases s.fault <;> simp

/-- **The server handler hands a packet over**: to the router if it is registered, with a fault if
that has no queue yet. -/
theorem step_receivedNGPPacket (hs : Requests s.m_srvHandler)
    (h : s.step create reqID .receivedNGPPacket = some s') :
    (s.Registered ∧ ¬s.construction.HasQueue ∧ s' = { s with fault := true }) ∨
    ∃ packet, s.packet = some packet ∧ s'.packet = none ∧ s'.fault = false ∧
      s'.construction = s.construction ∧
      s'.m_srvHandler = (s.m_srvHandler.receivedNGPPacket (reqID packet)).2 ∧
      s'.reader.m_shouldRun = s.reader.m_shouldRun ∧
      s'.reader.m_palConnection = s.reader.m_palConnection ∧
      ((s.construction.HasQueue ∧ packets s'.m_msgRouter = packets s.m_msgRouter ++ [packet] ∧
          s'.lost = s.lost) ∨
        (¬s.Registered ∧ s'.m_msgRouter = s.m_msgRouter ∧ s'.lost = s.lost ++ [packet])) := by
  obtain ⟨hfault, h⟩ := step_eq_some.mp h
  rw [stepPart] at h
  split at h
  · cases h
  · rename_i packet hpacket
    have hreceiver := receiver_eq hs (reqID packet)
    split at h
    · rename_i handler hhandler
      obtain rfl := Option.some.inj h
      rw [hhandler] at hreceiver
      refine Or.inr ⟨packet, hpacket, rfl, hfault, rfl, ?_⟩
      rw [hhandler]
      exact ⟨rfl, rfl, rfl, Or.inr ⟨not_not.mpr hreceiver.symm, rfl, rfl⟩⟩
    · rename_i receiver handler hhandler
      rw [hhandler] at hreceiver
      split at h
      · rename_i hqueue
        obtain rfl := Option.some.inj h
        refine Or.inr ⟨packet, hpacket, rfl, hfault, rfl, ?_⟩
        rw [hhandler]
        refine ⟨rfl, rfl, rfl, Or.inl ⟨hqueue, ?_, rfl⟩⟩
        rw [packets, packets, List.append_assoc]
      · rename_i hqueue
        have hregistered : s.Registered := by
          rw [Registered, ← hreceiver]
          exact nofun
        exact Or.inl ⟨hregistered, hqueue, (Option.some.inj h).symm⟩

/-- The constructor of the router goes from one place to the next. -/
def Construction.Next (c c' : Construction) : Action φ → Prop
  | .registerNGPMessageReceiver => c = .uncalled ∧ c' = .registered
  | .newMessageQueue => c = .registered ∧ c' = .queue
  | .createMutex => c = .queue ∧ c' = .mutex
  | _ => c' = c

/-- So each of its steps is taken when the place behind it has been reached. -/
theorem Construction.Next.places {c c' : Construction} {a : Action φ}
    (h : Construction.Next c c' a) :
    (c' ≠ .uncalled ↔ c ≠ .uncalled ∨ a = .registerNGPMessageReceiver) ∧
      (c'.HasQueue ↔ c.HasQueue ∨ a = .newMessageQueue) ∧
      (c' = .mutex ↔ c = .mutex ∨ a = .createMutex) := by
  cases a with
  | registerNGPMessageReceiver | newMessageQueue | createMutex =>
    obtain ⟨rfl, rfl⟩ := h
    simp [Construction.HasQueue]
  | receiveBlocking | receivedNGPPacket | generateNewRequestId | registerReceiverId _ | router _ =>
    obtain rfl : c' = c := h
    simp

/-- Any other step does not touch the packets behind the reader.  A call of the router faults if
there is no mutex for it. -/
theorem step_other {a : Action φ} (hs : Requests s.m_srvHandler) (hother : a ≠ .receivedNGPPacket)
    (h : s.step create reqID a = some s') :
    Requests s'.m_srvHandler ∧ packets s'.m_msgRouter = packets s.m_msgRouter ∧
      s'.lost = s.lost ∧ (s'.Registered ↔ s.Registered ∨ a = .registerNGPMessageReceiver) ∧
      Construction.Next s.construction s'.construction a ∧
      (s'.fault = true ↔ (∃ i, a = .router (.call i)) ∧ s.construction ≠ .mutex) ∧
      (a ≠ .receiveBlocking → s'.reader = s.reader ∧ s'.packet = s.packet) := by
  obtain ⟨hfault, h⟩ := step_eq_some.mp h
  cases a with
  | receivedNGPPacket => exact absurd rfl hother
  | receiveBlocking =>
    rw [stepPart] at h
    split at h
    · split at h
      · obtain rfl := Option.some.inj h
        exact ⟨hs, rfl, rfl, by simp [Registered], rfl, by simp [hfault],
          fun hread => absurd rfl hread⟩
      · cases h
    · cases h
  | registerNGPMessageReceiver =>
    obtain ⟨hnext, heq⟩ := Option.ite_none_right_eq_some.mp h
    obtain rfl := Option.some.inj heq
    exact ⟨hs, rfl, rfl, iff_of_true (registered_registerNGPMessageReceiver _) (Or.inr rfl),
      ⟨hnext, rfl⟩, by simp [hfault], fun _ => ⟨rfl, rfl⟩⟩
  | newMessageQueue | createMutex =>
    obtain ⟨hnext, heq⟩ := Option.ite_none_right_eq_some.mp h
    obtain rfl := Option.some.inj heq
    exact ⟨hs, rfl, rfl, by simp [Registered], ⟨hnext, rfl⟩, by simp [hfault],
      fun _ => ⟨rfl, rfl⟩⟩
  | generateNewRequestId =>
    obtain rfl := Option.some.inj h
    exact ⟨hs, rfl, rfl, (or_iff_left nofun).symm, rfl, by simp [hfault], fun _ => ⟨rfl, rfl⟩⟩
  | registerReceiverId requestId =>
    obtain rfl := Option.some.inj h
    exact ⟨requests_registerReceiverId hs requestId, rfl, rfl, (or_iff_left nofun).symm, rfl,
      by simp [hfault], fun _ => ⟨rfl, rfl⟩⟩
  | router a =>
    rw [stepPart] at h
    split at h
    · cases h
    · rename_i hpush
      split at h
      · rename_i hmutex
        rw [Option.map_eq_some_iff] at h
        obtain ⟨router, hrouter, rfl⟩ := h
        exact ⟨hs, packets_step (Bool.not_eq_true _ ▸ hpush) hrouter, rfl,
          (or_iff_left nofun).symm, rfl, by simp [hfault, hmutex], fun _ => ⟨rfl, rfl⟩⟩
      · rename_i hmutex
        obtain ⟨hcall, heq⟩ := Option.ite_none_right_eq_some.mp h
        obtain rfl := Option.some.inj heq
        refine ⟨hs, rfl, rfl, (or_iff_left nofun).symm, rfl, iff_of_true rfl ⟨?_, hmutex⟩,
          fun _ => ⟨rfl, rfl⟩⟩
        cases a with
        | call i => exact ⟨i, rfl⟩
        | receivedNGPPacket | startThread | stopThread | router | wakeup => cases hcall

/-- Requests are for the router, and that is registered from the first step of its constructor
on. -/
structure Wired (s : Core φ) : Prop where
  requests : Requests s.m_srvHandler
  registered : s.Registered ↔ s.construction ≠ .uncalled

theorem wired_start (socket : Socket) (m_stayAlive : Bool) :
    Wired (start socket m_stayAlive : Core φ) where
  requests k m h := by cases h
  registered := iff_of_false (not_not.mpr rfl) (not_not.mpr rfl)

/-- Every step keeps this. -/
theorem Wired.step (hs : s.Wired) {a : Action φ} (h : s.step create reqID a = some s') :
    s'.Wired := by
  by_cases hpush : a = .receivedNGPPacket
  · subst hpush
    rcases step_receivedNGPPacket hs.requests h with ⟨-, -, rfl⟩ |
      ⟨packet, -, -, -, hconstruction, hhandler, -⟩
    · exact ⟨hs.requests, hs.registered⟩
    · obtain ⟨-, -, -, hsame⟩ := s.m_srvHandler.receivedNGPPacket_spec (reqID packet)
      refine ⟨hhandler ▸ requests_receivedNGPPacket hs.requests _, ?_⟩
      rw [Registered, hhandler, hsame, hconstruction]
      exact hs.registered
  · obtain ⟨hrequests, -, -, hregistered, hnext, -⟩ := step_other hs.requests hpush h
    exact ⟨hrequests, by rw [hregistered, hs.registered, hnext.places.1]⟩

/-- A router that has a queue is registered. -/
theorem Wired.registered_of_hasQueue (hs : s.Wired) (h : s.construction.HasQueue) :
    s.Registered := by
  rw [hs.registered]
  rcases h with h | h <;> simp [h]

/-! ## Where the packets are -/

/-- The packets that have been read, in their order. -/
def read (s : Core φ) : List φ := s.lost ++ packets s.m_msgRouter ++ s.packet.toList

/-- What holds in every state of a run on a stream of packets that may end inside of one. -/
structure Inv (create : List UInt8 → Option φ) (stream : List (List UInt8)) (tail : List UInt8)
    (s : Core φ) : Prop where
  /-- Requests are for the router. -/
  wired : s.Wired
  /-- Before it is registered, the router gets nothing. -/
  early : ¬s.Registered → packets s.m_msgRouter = []
  /-- What the factory made of the packets so far has been read, and the rest is still to come. -/
  stream : ∃ n ≤ stream.length,
    s.read = (stream.take n).filterMap (fun bytes => create (bytes.drop 5)) ∧
      if s.reader.m_shouldRun then
        s.reader.m_palConnection.pending = (stream.drop n).flatten ++ tail
      else n = stream.length

theorem inv_start {stream : List (List UInt8)} {tail : List UInt8} {socket : Socket}
    (hstream : socket.pending = stream.flatten ++ tail) (m_stayAlive : Bool) :
    Inv create stream tail (start socket m_stayAlive) where
  wired := wired_start socket m_stayAlive
  early _ := rfl
  stream := ⟨0, Nat.zero_le _, rfl, hstream⟩

section Stream

variable {stream : List (List UInt8)} {tail last : List UInt8} {socket : Socket}
  (hwritten : ∀ bytes ∈ stream, Written bytes) (hlast : Written last) (htail : tail <+: last)
  (hcut : tail.length < last.length)

include hwritten hlast htail hcut

/-- **The reader reads the next packet**, or finds that there is none. -/
theorem Inv.receivePacket (hs : Inv create stream tail s) (hrun : s.reader.m_shouldRun = true)
    (hnone : s.packet = none) :
    ∃ packet reader, s.reader.receivePacket create = .ok (packet, reader) ∧
      Inv create stream tail { s with reader, packet } := by
  obtain ⟨n, hn, hread, hrest⟩ := hs.stream
  rw [if_pos hrun] at hrest
  rw [read, hnone, Option.toList_none, List.append_nil] at hread
  rcases hn.lt_or_eq with hlt | rfl
  · rw [List.drop_eq_getElem_cons hlt, List.flatten_cons, List.append_assoc] at hrest
    obtain ⟨reader, hreader, hpending, hshould, -⟩ := ConnectionReader.receivePacket_written create
      s.reader (hwritten _ (List.getElem_mem hlt)) hrest
    refine ⟨_, reader, hreader, ⟨hs.wired.requests, hs.wired.registered⟩, hs.early, n + 1, hlt,
      ?_, ?_⟩
    · rw [read, hread, List.take_succ_eq_append_getElem hlt, List.filterMap_append]
      cases hcreate : create (stream[n].drop 5) <;> simp [hcreate]
    · rw [if_pos (hshould.trans hrun)]
      exact hpending
  · rw [List.drop_length, List.flatten_nil, List.nil_append] at hrest
    obtain ⟨reader, hreader, hstop, -⟩ := ConnectionReader.receivePacket_cut create s.reader hlast
      (hrest ▸ htail) (hrest ▸ hcut)
    refine ⟨none, reader, hreader, ⟨hs.wired.requests, hs.wired.registered⟩, hs.early,
      stream.length, le_rfl, ?_, ?_⟩
    · rw [read, Option.toList_none, List.append_nil, hread]
    · rw [if_neg (by rw [hstop]; exact Bool.false_ne_true)]

/-- Every step keeps the invariant. -/
theorem Inv.step (hs : Inv create stream tail s) {a : Action φ}
    (h : s.step create reqID a = some s') : Inv create stream tail s' := by
  have hwired := hs.wired.step h
  by_cases hpush : a = .receivedNGPPacket
  · subst hpush
    rcases step_receivedNGPPacket hs.wired.requests h with ⟨-, -, rfl⟩ |
      ⟨packet, hpacket, hnone, -, hconstruction, hhandler, hrun, hsocket, hcase⟩
    · exact ⟨hwired, hs.early, hs.stream⟩
    obtain ⟨-, -, -, hsame⟩ := s.m_srvHandler.receivedNGPPacket_spec (reqID packet)
    have hregistered : s'.Registered ↔ s.Registered := by
      rw [Registered, Registered, hhandler, hsame]
    have hread : s'.read = s.read := by
      rw [read, read, hnone, hpacket, Option.toList_none, Option.toList_some, List.append_nil]
      rcases hcase with ⟨-, hpushed, hlost⟩ | ⟨hearly, hrouter, hlost⟩
      · rw [hpushed, hlost, List.append_assoc]
      · rw [hrouter, hlost, hs.early hearly, List.append_nil, List.append_nil]
    refine ⟨hwired, fun hearly => ?_, ?_⟩
    · rw [hregistered] at hearly
      rcases hcase with ⟨hqueue, -⟩ | ⟨-, hrouter, -⟩
      · exact absurd (hs.wired.registered_of_hasQueue hqueue) hearly
      · rw [hrouter]
        exact hs.early hearly
    · rw [hread, hrun, hsocket]
      exact hs.stream
  · by_cases hreads : a = .receiveBlocking
    · subst hreads
      obtain ⟨-, h⟩ := step_eq_some.mp h
      rw [stepPart] at h
      split at h
      · rename_i hready
        obtain ⟨packet, reader, hreader, hinv⟩ := hs.receivePacket hwritten hlast htail hcut
          hready.1 (Option.isNone_iff_eq_none.mp hready.2)
        rw [hreader] at h
        obtain rfl := Option.some.inj h
        exact hinv
      · cases h
    · obtain ⟨-, hpackets, hlost, hregistered, -, -, hreader⟩ :=
        step_other hs.wired.requests hpush h
      obtain ⟨hreader, hpacket⟩ := hreader hreads
      refine ⟨hwired, fun hearly => ?_, ?_⟩
      · rw [hpackets]
        exact hs.early fun hreg => hearly (hregistered.mpr (Or.inl hreg))
      · rw [read, hpackets, hlost, hpacket, hreader]
        exact hs.stream

/-- The invariant holds after every run. -/
theorem inv_of_run (hstream : socket.pending = stream.flatten ++ tail) {m_stayAlive : Bool}
    {as : List (Action φ)} (hrun : run (step create reqID) (start socket m_stayAlive) as = some s) :
    Inv create stream tail s := by
  have hstep : ∀ (t : Core φ) a t', Inv create stream tail t → True →
      step create reqID t a = some t' → Inv create stream tail t' :=
    fun _ _ _ ht _ h => ht.step hwritten hlast htail hcut h
  exact run_invariant hstep (inv_start hstream m_stayAlive)
    (AllSteps.of_forall (fun _ _ => trivial) _) hrun

/-- **No packet is duplicated, reordered or dropped on the way.**  After every run the packets for
which there was no receiver, those the router has dispatched, those in its queue and the one the
reader holds are what the factory made of the packets the reader has read, in the order of the
stream; and unless there was a fault the reader goes on until it has met the end of the stream. -/
theorem delivered_in_order (hstream : socket.pending = stream.flatten ++ tail) (m_stayAlive : Bool)
    (as : List (Action φ)) (hrun : run (step create reqID) (start socket m_stayAlive) as = some s) :
    ∃ n ≤ stream.length,
      s.lost ++ (s.m_msgRouter.dispatched ++ s.m_msgRouter.m_messageQueue) ++ s.packet.toList =
        (stream.take n).filterMap (fun bytes => create (bytes.drop 5)) ∧
      (s.reader.m_shouldRun = false → n = stream.length) ∧
      (s.fault = false → s.reader.m_shouldRun = true → s.packet = none →
        (s.step create reqID .receiveBlocking).isSome) ∧
      (s.fault = false → s.packet ≠ none → (s.step create reqID .receivedNGPPacket).isSome) := by
  have hs := inv_of_run hwritten hlast htail hcut hstream hrun
  obtain ⟨n, hn, hread, hrest⟩ := hs.stream
  refine ⟨n, hn, hread, fun hstop => ?_, fun hfault hgoes hnone => ?_, fun hfault hpacket => ?_⟩
  · rwa [if_neg (by rw [hstop]; exact Bool.false_ne_true)] at hrest
  · obtain ⟨packet, reader, hreader, -⟩ := hs.receivePacket hwritten hlast htail hcut hgoes hnone
    rw [Core.step, hfault, if_neg Bool.false_ne_true, stepPart,
      if_pos ⟨hgoes, Option.isNone_iff_eq_none.mpr hnone⟩, hreader]
    rfl
  · obtain ⟨packet, hsome⟩ := Option.ne_none_iff_exists'.mp hpacket
    rw [Core.step, hfault, if_neg Bool.false_ne_true, stepPart, hsome]
    cases hhandler : s.m_srvHandler.receivedNGPPacket (reqID packet) with
    | mk receiver handler =>
      by_cases hqueue : s.construction.HasQueue <;> cases receiver <;>
        simp [hhandler, hqueue, MessageRouter.Router.step]

end Stream

/-- The router is constructed, and its thread is started. -/
def constructRouter : List (Action φ) :=
  [.registerNGPMessageReceiver, .newMessageQueue, .createMutex, .router .startThread,
    .router (.call 0), .router (.call 0), .router (.call 0), .router (.call 0)]

/-- The reader hands its packet over, and the router thread dispatches it. -/
def dispatchPacket : List (Action φ) :=
  [.receivedNGPPacket, .router .router, .router .router, .router .router, .router .router]

/-- Three packets of no params, each with a type of its own, are read; the first one is handed over
and dispatched, the second one is in the queue and the reader holds the third one. -/
theorem delivered_in_order_three :
    let packet (type : UInt16) : List UInt8 :=
      (NavPacket.new 0xc type 1 1).wire GunzipUtil.stub [0, 0] NParamBlock.empty
    let stream := [packet 0x2a, packet 0x2b, packet 0x2c]
    ∃ s ∈ run (step (fun bytes => some (packetType bytes)) fun _ => 1)
        (start ⟨stream.flatten ++ [0x02, 0], (· % 3), .PAL_READ_ERROR, by decide⟩ false)
        ([.generateNewRequestId, .registerReceiverId 1, .receiveBlocking] ++ constructRouter ++
          dispatchPacket ++ [.receiveBlocking, .receivedNGPPacket, .receiveBlocking]),
      s.m_msgRouter.dispatched = [0x2a] ∧
        ∃ n ≤ 3, s.lost ++ (s.m_msgRouter.dispatched ++ s.m_msgRouter.m_messageQueue) ++
          s.packet.toList =
            (stream.take n).filterMap (fun bytes => some (packetType (bytes.drop 5))) := by
  intro packet stream
  have hstream : ∀ bytes ∈ stream, Written bytes := by
    simp only [stream, List.forall_mem_cons, List.not_mem_nil, false_implies, implies_true,
      and_true]
    exact ⟨ConnectionReader.written_empty _, ConnectionReader.written_empty _,
      ConnectionReader.written_empty _⟩
  have htail : [0x02, 0] <+: packet 0x2a := by decide
  have hrun : ∃ s ∈ run (step (fun bytes => some (packetType bytes)) fun _ => 1)
      (start ⟨stream.flatten ++ [0x02, 0], (· % 3), .PAL_READ_ERROR, by decide⟩ false)
      ([.generateNewRequestId, .registerReceiverId 1, .receiveBlocking] ++ constructRouter ++
        dispatchPacket ++ [.receiveBlocking, .receivedNGPPacket, .receiveBlocking]),
      s.m_msgRouter.dispatched = [0x2a] := by decide +kernel
  obtain ⟨s, hrun, hdispatched⟩ := hrun
  obtain ⟨n, hn, hread, -⟩ := delivered_in_order hstream (ConnectionReader.written_empty 0x2a)
    htail (by decide) rfl false _ hrun
  exact ⟨s, hrun, hdispatched, n, hn, hread⟩

/-! ## What is lost -/

/-- Before each packet that is handed over the constructor of the router has created the queue, and
before each step of a call of the router the mutex. -/
def ConstructedInTime (as : List (Action φ)) : Prop :=
  (∀ bs, bs ++ [.receivedNGPPacket] <+: as → .newMessageQueue ∈ bs) ∧
    ∀ bs i, bs ++ [.router (.call i)] <+: as → .createMutex ∈ bs

/-- A step that is taken after `b` wherever it is taken: behind a schedule for which this is so, and
at its end. -/
private theorem forall_prefix_concat {α : Type} {as : List α} {a c b : α} :
    (∀ bs, bs ++ [c] <+: as ++ [a] → b ∈ bs) ↔
      (∀ bs, bs ++ [c] <+: as → b ∈ bs) ∧ (a = c → b ∈ as) := by
  constructor
  · intro h
    refine ⟨fun bs hbs => h bs (hbs.trans (List.prefix_append as [a])), ?_⟩
    rintro rfl
    exact h as (List.prefix_refl _)
  · rintro ⟨hbefore, hlast⟩ bs hbs
    rcases List.prefix_concat_iff.mp hbs with heq | hprefix
    · obtain ⟨rfl, ha⟩ := List.append_inj' heq rfl
      exact hlast (List.cons.inj ha).1.symm
    · exact hbefore bs hprefix

/-- The last step of a schedule is in time, and so are the others. -/
theorem constructedInTime_concat (as : List (Action φ)) (a : Action φ) :
    ConstructedInTime (as ++ [a]) ↔ ConstructedInTime as ∧
      (a = .receivedNGPPacket → .newMessageQueue ∈ as) ∧
      ((∃ i, a = .router (.call i)) → .createMutex ∈ as) := by
  have hcall : (∀ bs i, bs ++ [.router (.call i)] <+: as ++ [a] → .createMutex ∈ bs) ↔
      (∀ bs i, bs ++ [.router (.call i)] <+: as → .createMutex ∈ bs) ∧
        ((∃ i, a = .router (.call i)) → .createMutex ∈ as) := by
    rw [forall_comm, forall_congr' fun i => forall_prefix_concat, forall_and, forall_comm,
      exists_imp]
  rw [ConstructedInTime, ConstructedInTime, forall_prefix_concat, hcall]
  exact and_and_and_comm

/-- How far the constructor has got in a run, and when there was nothing wrong in it. -/
theorem order_of_run {socket : Socket} {m_stayAlive : Bool} {as : List (Action φ)}
    (hrun : run (step create reqID) (start socket m_stayAlive) as = some s) :
    s.Wired ∧ (s.construction.HasQueue ↔ .newMessageQueue ∈ as) ∧
      (s.construction = .mutex ↔ .createMutex ∈ as) ∧
      (s.lost = [] ∧ s.fault = false ↔ ConstructedInTime as) := by
  induction as using List.reverseRecOn generalizing s with
  | nil =>
    obtain rfl := Option.some.inj hrun
    have huncalled : (start socket m_stayAlive : Core φ).construction = .uncalled := rfl
    refine ⟨wired_start _ _, ?_, ?_, iff_of_true ⟨rfl, rfl⟩ ⟨fun bs hbs => ?_, fun bs i hbs => ?_⟩⟩
    · simp [huncalled, Construction.HasQueue]
    · simp [huncalled]
    · simp at hbs
    · simp at hbs
  | append_singleton as a ih =>
    rw [run_append, Option.bind_eq_some_iff] at hrun
    obtain ⟨t, hrun, hlast⟩ := hrun
    rw [run, Option.bind_eq_some_iff] at hlast
    obtain ⟨t', hstep, hlast⟩ := hlast
    obtain rfl := Option.some.inj hlast
    obtain ⟨hwired, hqueue, hmutex, hgood⟩ := ih hrun
    have hfault := (step_eq_some.mp hstep).1
    refine ⟨hwired.step hstep, ?_⟩
    simp only [constructedInTime_concat, ← hgood, List.mem_append, ← hqueue, ← hmutex,
      List.mem_singleton, hfault, and_true]
    by_cases hpush : a = .receivedNGPPacket
    · subst hpush
      rcases step_receivedNGPPacket hwired.requests hstep with ⟨-, hnone, rfl⟩ |
        ⟨packet, -, -, hfault', hconstruction, -, -, -, hcase⟩
      · simp [hnone]
      · rw [hconstruction, hfault']
        rcases hcase with ⟨hhas, -, hsame⟩ | ⟨hearly, -, hmore⟩
        · simp [hsame, hhas]
        · have hnone : ¬t.construction.HasQueue := mt hwired.registered_of_hasQueue hearly
          simp [hmore, hnone]
    · obtain ⟨-, -, hsame, -, hnext, hfault', -⟩ := step_other hwired.requests hpush hstep
      obtain ⟨-, hqueue', hmutex'⟩ := hnext.places
      rw [hqueue', hmutex', hsame, ← Bool.not_eq_true, hfault']
      refine ⟨by rw [eq_comm (a := a)], by rw [eq_comm (a := a)], and_congr_right fun _ => ?_⟩
      rw [not_and, not_not]
      exact (and_iff_right fun h => absurd h hpush).symm

/-- **When no packet is lost and none meets a router without its parts.**  Whatever the socket
delivers, this is so in a run exactly if the constructor of the message router has created the queue
before each packet that is handed over, although `createCore` has started the reader before, and the
mutex before each call takes it. -/
theorem nothing_lost_iff {socket : Socket} {m_stayAlive : Bool} {as : List (Action φ)}
    (hrun : run (step create reqID) (start socket m_stayAlive) as = some s) :
    s.lost = [] ∧ s.fault = false ↔
      (∀ bs, bs ++ [.receivedNGPPacket] <+: as → .newMessageQueue ∈ bs) ∧
        ∀ bs i, bs ++ [.router (.call i)] <+: as → .createMutex ∈ bs :=
  (order_of_run hrun).2.2.2

/-- The reader hands a packet over when the message router has been registered, and has no queue: no
packet is lost, so that there is a fault. -/
theorem nothing_lost_iff_registered :
    ∃ s ∈ run (step List.head? fun _ => 1)
        (start ⟨[0x02, 0, 0, 0, 6, 7], (· % 3), .PAL_SOCKET_END_OF_FILE, by decide⟩ false)
        [.receiveBlocking, .registerNGPMessageReceiver, .receivedNGPPacket],
      s.lost = [] ∧ s.fault = true := by
  have hrun : ∃ s ∈ run (step List.head? fun _ => 1)
      (start ⟨[0x02, 0, 0, 0, 6, 7], (· % 3), .PAL_SOCKET_END_OF_FILE, by decide⟩ false)
      [.receiveBlocking, .registerNGPMessageReceiver, .receivedNGPPacket], s.lost = [] := by
    decide +kernel
  obtain ⟨s, hrun, hlost⟩ := hrun
  refine ⟨s, hrun, hlost, Bool.not_eq_false _ ▸ fun hfault => ?_⟩
  have hmem := ((nothing_lost_iff hrun).mp ⟨hlost, hfault⟩).1
    [.receiveBlocking, .registerNGPMessageReceiver] (List.prefix_refl _)
  simp at hmem

/-! ## Replies -/

/-- What the generated factory makes of a payload for the reader. -/
def decode (zip : GunzipUtil) (target : Target) (fuel : ℕ) (classes : UInt16 → Option (List Param))
    (payload : List UInt8) : Option ReplyPacket :=
  Except.toOption (Generator.createReplyPacketFromBuffer zip target fuel classes payload
    payload.length) |>.join

theorem decode_eq_some {zip : GunzipUtil} {target : Target} {fuel : ℕ}
    {classes : UInt16 → Option (List Param)} {payload : List UInt8} {packet : ReplyPacket}
    (h : Generator.createReplyPacketFromBuffer zip target fuel classes payload payload.length =
      .ok (some packet)) : decode zip target fuel classes payload = some packet := by
  unfold decode
  rw [h]
  rfl

/-- The reader makes replies of the bytes of replies. -/
theorem forall₂_decode {zip : GunzipUtil} {target : Target} (fuel : ℕ)
    {classes : UInt16 → Option (List Param)} {replies : List Reply} {outs : List (List UInt8)}
    (hsent : List.Forall₂ (Reply.Sent zip) replies outs)
    (hsound : ∀ r ∈ replies, r.Sound target classes) :
    List.Forall₂ Reply.Recovers replies
      (outs.filterMap fun bytes => decode zip target fuel classes (bytes.drop 5)) := by
  have hboth := (List.forall₂_and_left _ _).mpr ⟨hsound, hsent⟩
  rw [← List.filterMap_some (l := replies)]
  refine List.rel_filterMap (fun r bytes h => ?_) hboth
  obtain ⟨packet, hpacket, hrecovers⟩ := h.2.arrives fuel h.1
  rw [decode_eq_some hpacket]
  exact .some hrecovers

/-- **From the other side to the listeners.**  One side sends sound replies one after the other, and
the stream may end inside of one.  If the router is constructed in time, the objects it has
dispatched are the first replies that were sent, each with its header and members, in their order;
and they are all of them when the reader has met the end and nothing is left on the way. -/
theorem replies_in_order {zip : GunzipUtil} {target : Target} (fuel : ℕ)
    {classes : UInt16 → Option (List Param)} {replies : List Reply} {outs : List (List UInt8)}
    (hsent : List.Forall₂ (Reply.Sent zip) replies outs)
    (hsound : ∀ r ∈ replies, r.Sound target classes) {tail last : List UInt8}
    (hlast : Written last) (htail : tail <+: last) (hcut : tail.length < last.length)
    {socket : Socket} (hstream : socket.pending = outs.flatten ++ tail) (m_stayAlive : Bool)
    {as : List (Action ReplyPacket)} {s : Core ReplyPacket}
    (hrun : run (step (decode zip target fuel classes) fun p => p.toNavReplyPacket.m_reqID)
      (start socket m_stayAlive) as = some s)
    (hconstructed : ConstructedInTime as) :
    ∃ k ≤ replies.length,
      List.Forall₂ Reply.Recovers (replies.take k) s.m_msgRouter.dispatched ∧
      (s.reader.m_shouldRun = false → s.packet = none → s.m_msgRouter.m_messageQueue = [] →
        k = replies.length) := by
  have hwritten : ∀ bytes ∈ outs, Written bytes := by
    intro bytes hbytes
    obtain ⟨i, hi, rfl⟩ := List.getElem_of_mem hbytes
    exact (hsent.get (hsent.length_eq ▸ hi) hi).written
  obtain ⟨n, hn, hread, hrest⟩ := (inv_of_run hwritten hlast htail hcut hstream hrun).stream
  have hlost := ((order_of_run hrun).2.2.2.mpr hconstructed).1
  have hrecovers := forall₂_decode fuel (List.forall₂_take n hsent)
    (fun r hr => hsound r (List.mem_of_mem_take hr))
  rw [← hread, read, hlost, List.nil_append, packets, List.append_assoc] at hrecovers
  have hlength := hrecovers.length_eq
  rw [List.length_take, List.length_append, List.length_append, hsent.length_eq, min_eq_left hn]
    at hlength
  refine ⟨s.m_msgRouter.dispatched.length, ?_, ?_, fun hstop hnone hempty => ?_⟩
  · rw [hsent.length_eq]
    omega
  · have htake := List.forall₂_take s.m_msgRouter.dispatched.length hrecovers
    rw [List.take_take, List.take_left, min_eq_left (by omega)] at htake
    exact htake
  · rw [if_neg (by rw [hstop]; exact Bool.false_ne_true)] at hrest
    rw [hnone, hempty] at hlength
    rw [hsent.length_eq, ← hrest, hlength]
    rfl

/-- A reply arrives at the listeners; a second one is cut off. -/
theorem replies_in_order_one :
    ∃ out, Reply.pixelReply.Sent GunzipUtil.stub out ∧
      ∃ s ∈ run (step (decode GunzipUtil.stub ⟨.little, fun _ => 1000⟩ 0 Reply.pixelClasses)
            fun p => p.toNavReplyPacket.m_reqID)
          (start ⟨out ++ out.take 9, (· % 5), .PAL_READ_ERROR, by decide⟩ false)
          (.receiveBlocking :: (constructRouter ++ dispatchPacket)),
        List.Forall₂ Reply.Recovers [Reply.pixelReply] s.m_msgRouter.dispatched := by
  obtain ⟨out, hsent⟩ := Reply.exists_sent_pixelReply
  have hsound := Reply.sound_pixelReply
  have hcut : (out.take 9).length < out.length := by
    obtain ⟨hlen, -, -⟩ := hsent.payload
    rw [List.length_drop, HEADER_LENGTH] at hlen
    rw [List.length_take]
    omega
  obtain ⟨packet, hpacket, -⟩ := hsent.arrives 0 hsound
  obtain ⟨reader, hreader, -⟩ := ConnectionReader.receivePacket_written
    (decode GunzipUtil.stub ⟨.little, fun _ => 1000⟩ 0 Reply.pixelClasses)
    (.start ⟨out ++ out.take 9, (· % 5), .PAL_READ_ERROR, by decide⟩) hsent.written rfl
  rw [decode_eq_some hpacket] at hreader
  have hfirst : step (decode GunzipUtil.stub ⟨.little, fun _ => 1000⟩ 0 Reply.pixelClasses)
      (fun p => p.toNavReplyPacket.m_reqID)
      (start ⟨out ++ out.take 9, (· % 5), .PAL_READ_ERROR, by decide⟩ false) .receiveBlocking =
        some ⟨reader, some packet, ⟨0, ∅, ∅⟩, .uncalled, .init false, [], false⟩ := by
    rw [step_eq_some, stepPart, start, if_pos ⟨rfl, rfl⟩, hreader]
    exact ⟨rfl, rfl⟩
  have hrun : ∃ s ∈ run (step (decode GunzipUtil.stub ⟨.little, fun _ => 1000⟩ 0
        Reply.pixelClasses) fun p => p.toNavReplyPacket.m_reqID)
      (start ⟨out ++ out.take 9, (· % 5), .PAL_READ_ERROR, by decide⟩ false)
      (.receiveBlocking :: (constructRouter ++ dispatchPacket)),
      s.m_msgRouter.dispatched = [packet] ∧ s.lost = [] ∧ s.fault = false := by
    rw [run, hfirst]
    exact ⟨_, rfl, rfl, rfl, rfl⟩
  obtain ⟨s, hrun, hdispatched, hgood⟩ := hrun
  obtain ⟨k, hk, hrecovers, -⟩ := replies_in_order 0 (List.Forall₂.cons hsent .nil)
    (List.forall_mem_singleton.mpr hsound) hsent.written (List.take_prefix 9 out) hcut
    (by simp) false hrun ((order_of_run hrun).2.2.2.mp hgood)
  refine ⟨out, hsent, s, hrun, ?_⟩
  have hlength := hrecovers.length_eq
  rw [List.length_take, List.length_singleton, hdispatched, List.length_singleton] at hlength
  rw [List.length_singleton] at hk
  obtain rfl : k = 1 := by omega
  exact hrecovers

end Core

end CppCore.CoreMain
