import CppCore.Lib.Run
import CppCore.Ngp.NavPacket

/-!
# Sending requests from several threads

`ServerHandler::sendNGPMessage` pushes the packet onto the message queue of the handler, and its
caller then pops the oldest packet and writes it to the connection, in a loop over partial
writes.  The queue is guarded by a mutex, but nothing keeps a second caller from writing while a
first one is in its loop.

The state has the queue, the number of callers between their push and their pop, and what each
caller in the write loop has still to write; the schedule decides whose turn it is and how many
bytes the socket takes.

## Main definitions

* `NavRequestPacket` — a request; `NavRequestPacket.buf` the bytes to send for it.
* `Sending`, `step` — the system.
* `InTurn` — only the caller that popped first among those not done has bytes accepted.
* `accepted_eq` — in such runs the connection accepts whole packets in the order of the queue.
-/

namespace CppCore.ServerCom

open Lib Ngp

/-! ## Requests -/

/-- A request packet, with the `serialize` function of its class. -/
structure NavRequestPacket where
  /-- The packet. -/
  packet : NavPacket
  /-- `serialize( NParamBlock& block )`. -/
  serialize : NParamBlock → NParamBlock

namespace NavRequestPacket

/-- The params `sendBlocking` adds: `"LinuxNav2APITestIMEI001"` and its type `"imei"`. -/
def fakeID : List NParam :=
  [(NParam.ofID 3).addString ⟨[0x4c, 0x69, 0x6e, 0x75, 0x78, 0x4e, 0x61, 0x76, 0x32, 0x41, 0x50,
      0x49, 0x54, 0x65, 0x73, 0x74, 0x49, 0x4d, 0x45, 0x49, 0x30, 0x30, 0x31], by decide⟩,
    (NParam.ofID 29).addString ⟨[0x69, 0x6d, 0x65, 0x69], by decide⟩]

/-- The packet after `packet->serialize(packet->getParamBlock())`. -/
def serialized (p : NavRequestPacket) : NavPacket :=
  { p.packet with m_params := p.serialize p.packet.m_params }

/-- The buffer `sendBlocking( packet )` fills. -/
def buf (zip : GunzipUtil) (p : NavRequestPacket) : Exec (List UInt8) :=
  p.serialized.writeToWith zip (NavPacket.appends []) [] fakeID

/-- The complete encoding of a request. -/
def encoding (zip : GunzipUtil) (p : NavRequestPacket) : List UInt8 :=
  p.serialized.wire zip []
    (fakeID.foldl NParamBlock.addParam (NParamBlock.empty.assignToThis p.serialized.m_params))

/-- What is filled in is the encoding, unless that is larger than a vector can be. -/
theorem buf_eq_ok {zip : GunzipUtil} {p : NavRequestPacket} {bytes : List UInt8}
    (h : p.buf zip = .ok bytes) : bytes = p.encoding zip := by
  rw [buf, NavPacket.writeToWith, NavPacket.writeToInternal_eq] at h
  split at h
  · cases h
  · exact (Except.ok.inj h).symm

end NavRequestPacket

/-! ## The system -/

/-- The state of the handler's queue, its callers and its connection. -/
structure Sending where
  /-- The packets pushed so far, in that order. -/
  enqueued : List NavRequestPacket
  /-- The queue. -/
  m_msgQueue : List NavRequestPacket
  /-- How many callers are between `push` and `tryPop`. -/
  notifying : ℕ
  /-- What `bufferChar` and `size` describe for the callers in the write loop, in the order of
  their `tryPop`. -/
  senders : List (List UInt8)
  /-- The bytes the connection has accepted. -/
  accepted : List UInt8

namespace Sending

/-- Nothing was sent yet. -/
def init : Sending := ⟨[], [], 0, [], []⟩

/-- What can happen next. -/
inductive Action
  /-- Some thread calls `sendNGPMessage`, up to the push. -/
  | push (packet : NavRequestPacket)
  /-- A caller that has pushed runs `notify` up to the write loop. -/
  | tryPop
  /-- The write of the `i`-th caller in its loop accepts `n` bytes. -/
  | write (i n : ℕ)

/-- One step of the system. -/
def step (zip : GunzipUtil) (s : Sending) : Action → Option Sending
  | .push packet =>
    some { s with
      enqueued := s.enqueued ++ [packet]
      m_msgQueue := s.m_msgQueue ++ [packet]
      notifying := s.notifying + 1 }
  | .tryPop =>
    if s.notifying = 0 then
      none
    else
      match s.m_msgQueue with
      | [] => some { s with notifying := s.notifying - 1 }
      | packet :: rest =>
        match packet.buf zip with
        | .ok buf =>
          some { s with
            m_msgQueue := rest
            notifying := s.notifying - 1
            senders := s.senders ++ [buf] }
        | .error _ => none
  | .write i n =>
    match s.senders[i]? with
    | none => none
    | some buffer =>
      if buffer.length < n then
        none
      else if n < buffer.length then
        some { s with
          senders := s.senders.set i (buffer.drop n)
          accepted := s.accepted ++ buffer.take n }
      else
        some { s with
          senders := s.senders.eraseIdx i
          accepted := s.accepted ++ buffer }

theorem step_tryPop {zip : GunzipUtil} {s s' : Sending} (h : step zip s .tryPop = some s') :
    s.notifying ≠ 0 ∧
      ((s.m_msgQueue = [] ∧ s' = { s with notifying := s.notifying - 1 }) ∨
        ∃ packet rest buf, s.m_msgQueue = packet :: rest ∧ packet.buf zip = .ok buf ∧
          s' = { s with
            m_msgQueue := rest
            notifying := s.notifying - 1
            senders := s.senders ++ [buf] }) := by
  rw [step] at h
  split at h
  · cases h
  · rename_i hpos
    refine ⟨hpos, ?_⟩
    split at h
    · rename_i hnil
      exact Or.inl ⟨hnil, (Option.some.inj h).symm⟩
    · rename_i packet rest hcons
      split at h
      · rename_i buf hbuf
        exact Or.inr ⟨packet, rest, buf, hcons, hbuf, (Option.some.inj h).symm⟩
      · cases h

theorem step_write {zip : GunzipUtil} {s s' : Sending} {i n : ℕ}
    (h : step zip s (.write i n) = some s') :
    ∃ buffer, s.senders[i]? = some buffer ∧
      ((n < buffer.length ∧
          s' = { s with
            senders := s.senders.set i (buffer.drop n)
            accepted := s.accepted ++ buffer.take n }) ∨
        (n = buffer.length ∧
          s' = { s with
            senders := s.senders.eraseIdx i
            accepted := s.accepted ++ buffer })) := by
  rw [step] at h
  split at h
  · cases h
  · rename_i buffer hbuffer
    refine ⟨buffer, hbuffer, ?_⟩
    split at h
    · cases h
    · rename_i hle
      by_cases hlt : n < buffer.length
      · rw [if_pos hlt] at h
        exact Or.inl ⟨hlt, (Option.some.inj h).symm⟩
      · rw [if_neg hlt] at h
        exact Or.inr ⟨by omega, (Option.some.inj h).symm⟩

/-- All calls have returned. -/
def Returned (s : Sending) : Prop := s.notifying = 0 ∧ s.senders = []

/-- Bytes are accepted only from the caller that popped first among those that are not done. -/
def InTurn : Action → Prop
  | .write i n => i = 0 ∨ n = 0
  | _ => True

/-! ## Runs in which the callers write in turn -/

/-- Everything pushed is accepted, about to be written or queued, in this order; and every packet
in the queue has a caller that is about to pop one. -/
structure Inv (zip : GunzipUtil) (s : Sending) : Prop where
  /-- The bytes of the packets. -/
  bytes : s.accepted ++ s.senders.flatten ++ s.m_msgQueue.flatMap (·.encoding zip) =
    s.enqueued.flatMap (·.encoding zip)
  /-- The callers and the packets. -/
  callers : s.m_msgQueue.length = s.notifying

theorem inv_init (zip : GunzipUtil) : Inv zip init := ⟨rfl, rfl⟩

theorem inv_push {zip : GunzipUtil} {s s' : Sending} {packet : NavRequestPacket} (hs : Inv zip s)
    (h : step zip s (.push packet) = some s') : Inv zip s' := by
  obtain rfl := Option.some.inj h
  refine ⟨?_, ?_⟩
  · simp only [List.flatMap_append, ← hs.bytes, List.append_assoc]
  · simp [hs.callers]

theorem inv_tryPop {zip : GunzipUtil} {s s' : Sending} (hs : Inv zip s)
    (h : step zip s .tryPop = some s') : Inv zip s' := by
  have hcallers := hs.callers
  have hbytes := hs.bytes
  obtain ⟨hpos, ⟨hnil, -⟩ | ⟨packet, rest, buf, hcons, hbuf, rfl⟩⟩ := step_tryPop h
  · rw [hnil] at hcallers
    exact absurd hcallers.symm hpos
  · obtain rfl := NavRequestPacket.buf_eq_ok hbuf
    rw [hcons] at hcallers hbytes
    refine ⟨?_, ?_⟩
    · simpa using hbytes
    · simp only [List.length_cons] at hcallers
      change rest.length = s.notifying - 1
      omega

/-- Removing an empty list leaves the concatenation. -/
private theorem flatten_eraseIdx {l : List (List UInt8)} {i : ℕ} (h : l[i]? = some []) :
    (l.eraseIdx i).flatten = l.flatten := by
  obtain ⟨hi, hnil⟩ := List.getElem?_eq_some_iff.mp h
  have hsplit : l.take i ++ l[i] :: l.drop (i + 1) = l := by
    rw [← List.drop_eq_getElem_cons hi, List.take_append_drop]
  rw [List.eraseIdx_eq_take_drop_succ]
  nth_rewrite 3 [← hsplit]
  simp [hnil]

/-- A write by the first caller moves bytes from what is left to what is accepted. -/
private theorem bytes_write_first {zip : GunzipUtil} {s s' : Sending} {n : ℕ}
    (h : step zip s (.write 0 n) = some s') :
    s'.accepted ++ s'.senders.flatten = s.accepted ++ s.senders.flatten ∧
      s'.enqueued = s.enqueued ∧ s'.m_msgQueue = s.m_msgQueue ∧ s'.notifying = s.notifying := by
  obtain ⟨buffer, hbuffer, hcase⟩ := step_write h
  obtain ⟨rest, hsenders⟩ : ∃ rest, s.senders = buffer :: rest := by
    cases hl : s.senders with
    | nil => simp [hl] at hbuffer
    | cons b rest =>
      rw [hl, List.getElem?_cons_zero] at hbuffer
      exact ⟨rest, by rw [Option.some.inj hbuffer]⟩
  rcases hcase with ⟨-, rfl⟩ | ⟨-, rfl⟩
  · refine ⟨?_, rfl, rfl, rfl⟩
    simp only [hsenders, List.set_cons_zero, List.flatten_cons]
    rw [List.append_assoc, ← List.append_assoc (buffer.take n), List.take_append_drop]
  · refine ⟨?_, rfl, rfl, rfl⟩
    simp [hsenders]

/-- A write that accepts no byte changes nothing but, perhaps, who is done. -/
private theorem bytes_write_nothing {zip : GunzipUtil} {s s' : Sending} {i : ℕ}
    (h : step zip s (.write i 0) = some s') :
    s'.accepted ++ s'.senders.flatten = s.accepted ++ s.senders.flatten ∧
      s'.enqueued = s.enqueued ∧ s'.m_msgQueue = s.m_msgQueue ∧ s'.notifying = s.notifying := by
  obtain ⟨buffer, hbuffer, ⟨-, rfl⟩ | ⟨hzero, rfl⟩⟩ := step_write h
  · obtain ⟨hi, rfl⟩ := List.getElem?_eq_some_iff.mp hbuffer
    exact ⟨by simp, rfl, rfl, rfl⟩
  · obtain rfl : buffer = [] := List.length_eq_zero_iff.mp hzero.symm
    exact ⟨by simp [flatten_eraseIdx hbuffer], rfl, rfl, rfl⟩

theorem inv_write {zip : GunzipUtil} {s s' : Sending} {i n : ℕ} (hs : Inv zip s)
    (hturn : InTurn (.write i n)) (h : step zip s (.write i n) = some s') : Inv zip s' := by
  have hkept : s'.accepted ++ s'.senders.flatten = s.accepted ++ s.senders.flatten ∧
      s'.enqueued = s.enqueued ∧ s'.m_msgQueue = s.m_msgQueue ∧ s'.notifying = s.notifying := by
    rcases hturn with rfl | rfl
    · exact bytes_write_first h
    · exact bytes_write_nothing h
  obtain ⟨hbytes, henqueued, hqueue, hnotifying⟩ := hkept
  refine ⟨?_, ?_⟩
  · rw [hbytes, hqueue, henqueued]
    exact hs.bytes
  · rw [hqueue, hnotifying]
    exact hs.callers

theorem inv_step {zip : GunzipUtil} (s : Sending) (a : Action) (s' : Sending) (hs : Inv zip s)
    (hturn : InTurn a) (h : step zip s a = some s') : Inv zip s' := by
  cases a with
  | push packet => exact inv_push hs h
  | tryPop => exact inv_tryPop hs h
  | write i n => exact inv_write hs hturn h

/-- **In turn, whole packets are sent.**  When bytes are only accepted from the caller that popped
first, what the connection has accepted is at any time the beginning of the encodings of the
packets, each once and in the order in which they were pushed; and it is all of that when the
calls have returned. -/
theorem accepted_eq (zip : GunzipUtil) {as : List Action} {s : Sending}
    (hturn : AllSteps (step zip) (fun _ => InTurn) init as) (hrun : run (step zip) init as = some s) :
    s.accepted <+: s.enqueued.flatMap (·.encoding zip) ∧
      (s.Returned → s.accepted = s.enqueued.flatMap (·.encoding zip)) := by
  have hs := run_invariant inv_step (inv_init zip) hturn hrun
  have hbytes := hs.bytes
  rw [List.append_assoc] at hbytes
  refine ⟨⟨_, hbytes⟩, fun hreturned => ?_⟩
  have hqueue : s.m_msgQueue = [] :=
    List.length_eq_zero_iff.mp (hs.callers.trans hreturned.1)
  simpa [hreturned.2, hqueue] using hbytes

/-- A request without params. -/
def request (reqID : UInt8) : NavRequestPacket := ⟨NavPacket.new 0xc 0x29 reqID 1, id⟩

/-- Two callers, the second of which pushes while the first one writes, and waits for its turn. -/
theorem accepted_eq_two :
    ∃ s, run (step GunzipUtil.stub) init [.push (request 1), .tryPop, .write 0 20, .push (request 2),
        .tryPop, .write 0 35, .write 0 55] = some s ∧
      s.accepted = [request 1, request 2].flatMap (·.encoding GunzipUtil.stub) := by
  have hturn : AllSteps (step GunzipUtil.stub) (fun _ => InTurn) init [.push (request 1), .tryPop,
      .write 0 20, .push (request 2), .tryPop, .write 0 35, .write 0 55] :=
    AllSteps.of_forall (by simp [InTurn]) init
  have hend : (run (step GunzipUtil.stub) init [.push (request 1), .tryPop, .write 0 20,
      .push (request 2), .tryPop, .write 0 35, .write 0 55]).map
        (fun s => (s.enqueued, s.notifying, s.senders)) =
          some ([request 1, request 2], 0, []) := rfl
  obtain ⟨s, hrun, hs⟩ := Option.map_eq_some_iff.mp hend
  obtain ⟨henqueued, hnotifying, hsenders⟩ : s.enqueued = [request 1, request 2] ∧
      s.notifying = 0 ∧ s.senders = [] := by simpa using hs
  refine ⟨s, hrun, ?_⟩
  rw [(accepted_eq GunzipUtil.stub hturn hrun).2 ⟨hnotifying, hsenders⟩, henqueued]

/-- Two callers that are in the write loop at the same time: after the first byte of the first
packet the socket accepts the whole second packet.  All calls return, and the bytes are not those
of the two packets one after the other, in either order. -/
theorem accepted_interleaved :
    ∃ s, run (step GunzipUtil.stub) init [.push (request 1), .push (request 2), .tryPop, .tryPop,
        .write 0 1, .write 1 55, .write 0 54] = some s ∧ s.Returned ∧
      s.enqueued = [request 1, request 2] ∧
      s.accepted ≠ [request 1, request 2].flatMap (·.encoding GunzipUtil.stub) ∧
      s.accepted ≠ [request 2, request 1].flatMap (·.encoding GunzipUtil.stub) := by
  refine ⟨_, rfl, ⟨rfl, rfl⟩, rfl, ?_, ?_⟩
  -- the second byte accepted is the marker of the second packet, not the length of the first
  · exact fun h => absurd (congrArg (·[1]?) h) (by decide)
  · exact fun h => absurd (congrArg (·[1]?) h) (by decide)

end Sending

end CppCore.ServerCom
