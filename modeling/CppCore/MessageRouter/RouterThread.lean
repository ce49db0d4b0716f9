import CppCore.Lib.Run

/-!
# The router thread

Producers push packets onto the message queue of the `MessageRouter` and signal its condition
variable; the router thread empties the queue, then takes the mutex and waits for a signal.
`startThread` and `stopThread` set the flag that keeps the thread alive.

A system is the program counter of the router thread and one for each call in progress.  The
operations of the queue are atomic, and so are taking and releasing the mutex, entering the wait,
which releases it, and a signal, which is lost when the router is not in the wait.

## Main definitions

* `RouterPc`, `CallPc`, `Router` — the threads and what they share.
* `step` — one step of one of them.
* `LostWakeup` — the router sleeps although there is a packet and nobody about to signal.
* `WaitsInTime` — the wait is entered with an empty queue, or before the signal for a packet.
* `no_lost_wakeup_iff` — a run loses no wakeup exactly when all its waits are entered in time.
-/

namespace CppCore.MessageRouter

open Lib

/-! ## The threads -/

/-- Where the router thread is. -/
inductive RouterPc
  /-- Not started yet. -/
  | new
  /-- `while(m_stayAlive)`. -/
  | loop
  /-- `if (m_messageQueue->empty())` of `checkQueue`. -/
  | checkQueue
  /-- `while(!m_messageQueue->empty())`. -/
  | drain
  /-- `m_messageQueue->tryPop(res)`, and the calls of the listeners. -/
  | tryPop
  /-- `Lock lock(m_routeMutex)` of `routerThreadWait`. -/
  | lock
  /-- `if(m_stayAlive)` and the wait, with the mutex. -/
  | wait
  /-- In the wait, without the mutex. -/
  | parked
  /-- Woken, to take the mutex again. -/
  | signalled
  /-- The end of `routerThreadWait`, with the mutex. -/
  | unlock
  /-- Behind the loop. -/
  | exited
  deriving DecidableEq, Repr

/-- Where a call of another thread is. -/
inductive CallPc
  /-- `receivedNGPPacket`: behind the push, before the lock of `routerThreadNotify`. -/
  | pushed
  /-- `routerThreadNotify`: the signal, with the mutex. -/
  | notify
  /-- `startThread`: the lock. -/
  | start
  /-- `startThread`: `if(!m_stayAlive)` and the assignment, with the mutex. -/
  | setAlive
  /-- `startThread`: `pal_thread_start_thread`, with the mutex. -/
  | startThread
  /-- `stopThread`: the lock. -/
  | stop
  /-- `stopThread`: the assignment, with the mutex. -/
  | clearAlive
  /-- `stopThread`: the signal, with the mutex. -/
  | stopSignal
  /-- The end of the call, with the mutex. -/
  | unlock
  deriving DecidableEq, Repr

/-- A producer stands between its push and its signal. -/
def CallPc.Notifying (c : CallPc) : Prop := c = .pushed ∨ c = .notify

instance (c : CallPc) : Decidable c.Notifying := inferInstanceAs (Decidable (_ ∨ _))

variable {ρ : Type}

/-- What the threads share, and where they are. -/
structure Router (ρ : Type) where
  /-- The message queue. -/
  m_messageQueue : List ρ
  /-- True while the thread should keep running. -/
  m_stayAlive : Bool
  /-- Somebody has the mutex. -/
  m_routeMutex : Bool
  /-- The router thread. -/
  router : RouterPc
  /-- The calls in progress. -/
  calls : List CallPc
  /-- The packets the listeners were called with. -/
  dispatched : List ρ
  deriving DecidableEq

/-- What can happen next. -/
inductive Action (ρ : Type)
  /-- A producer calls `receivedNGPPacket`, up to the push. -/
  | receivedNGPPacket (packet : ρ)
  /-- Some thread calls `startThread`. -/
  | startThread
  /-- Some thread calls `stopThread(false)`. -/
  | stopThread
  /-- The `i`-th call in progress goes on. -/
  | call (i : ℕ)
  /-- The router thread goes on. -/
  | router
  /-- The wait ends without a signal. -/
  | wakeup

namespace Router

/-- A router that was just constructed; the constructor does not set `m_stayAlive`. -/
def init (m_stayAlive : Bool) : Router ρ := ⟨[], m_stayAlive, false, .new, [], []⟩

/-- `pal_thread_conditional_signal(m_routerThreadCond)`. -/
def signal (s : Router ρ) : Router ρ :=
  if s.router = .parked then { s with router := .signalled } else s

/-- The `i`-th call goes on at `pc`. -/
def goto (s : Router ρ) (i : ℕ) (pc : CallPc) : Router ρ := { s with calls := s.calls.set i pc }

/-- The `i`-th call takes the mutex and goes on at `pc`. -/
def acquire (s : Router ρ) (i : ℕ) (pc : CallPc) : Option (Router ρ) :=
  if s.m_routeMutex then none else some { s.goto i pc with m_routeMutex := true }

/-- A step of the `i`-th call in progress, which is at the given place. -/
def stepCall (s : Router ρ) (i : ℕ) : CallPc → Option (Router ρ)
  | .pushed => s.acquire i .notify
  | .notify => some (s.signal.goto i .unlock)
  | .start => s.acquire i .setAlive
  | .setAlive =>
    if s.m_stayAlive then some (s.goto i .unlock)
    else some { s.goto i .startThread with m_stayAlive := true }
  | .startThread =>
    -- a thread that is not new makes the call throw, and the mutex is released as well
    some { s.goto i .unlock with router := if s.router = .new then .loop else s.router }
  | .stop => s.acquire i .clearAlive
  | .clearAlive => some { s.goto i .stopSignal with m_stayAlive := false }
  | .stopSignal => some (s.signal.goto i .unlock)
  | .unlock => some { s with m_routeMutex := false, calls := s.calls.eraseIdx i }

/-- A step of the router thread, which is at the given place. -/
def stepRouter (s : Router ρ) : RouterPc → Option (Router ρ)
  | .new => none
  | .loop => some { s with router := if s.m_stayAlive then .checkQueue else .exited }
  | .checkQueue => some { s with router := if s.m_messageQueue.isEmpty then .lock else .drain }
  | .drain => some { s with router := if s.m_messageQueue.isEmpty then .lock else .tryPop }
  | .tryPop =>
    match s.m_messageQueue with
    | [] => some { s with router := .drain }
    | packet :: rest =>
      some { s with
        m_messageQueue := rest, dispatched := s.dispatched ++ [packet], router := .drain }
  | .lock => if s.m_routeMutex then none else some { s with m_routeMutex := true, router := .wait }
  | .wait =>
    if s.m_stayAlive then some { s with m_routeMutex := false, router := .parked }
    else some { s with router := .unlock }
  | .parked => none
  | .signalled =>
    if s.m_routeMutex then none else some { s with m_routeMutex := true, router := .unlock }
  | .unlock => some { s with m_routeMutex := false, router := .loop }
  | .exited => none

/-- One step of the system. -/
def step (s : Router ρ) : Action ρ → Option (Router ρ)
  | .receivedNGPPacket packet =>
    some { s with m_messageQueue := s.m_messageQueue ++ [packet], calls := s.calls ++ [.pushed] }
  | .startThread => some { s with calls := s.calls ++ [.start] }
  | .stopThread => some { s with calls := s.calls ++ [.stop] }
  | .call i =>
    match s.calls[i]? with
    | none => none
    | some pc => s.stepCall i pc
  | .router => s.stepRouter s.router
  | .wakeup => if s.router = .parked then some { s with router := .signalled } else none

/-! ## Wakeups -/

/-- Some producer stands between its push and its signal. -/
def Signalling (s : Router ρ) : Prop := ∃ c ∈ s.calls, c.Notifying

/-- The router is in the wait, not signalled, while there is a packet in the queue and no producer
between its push and its signal. -/
def LostWakeup (s : Router ρ) : Prop :=
  s.router = .parked ∧ s.m_messageQueue ≠ [] ∧ ¬s.Signalling

/-- If the router enters the wait, the queue is empty or some producer has yet to signal. -/
def WaitsInTime (s : Router ρ) (a : Action ρ) : Prop :=
  a = .router → s.router = .wait → s.m_stayAlive = true → s.m_messageQueue = [] ∨ s.Signalling

/-- What holds of a state without a lost wakeup. -/
def Awake (s : Router ρ) : Prop := s.router = .parked → s.m_messageQueue = [] ∨ s.Signalling

theorem not_lostWakeup_iff {s : Router ρ} : ¬s.LostWakeup ↔ s.Awake := by
  simp only [LostWakeup, Awake]
  tauto

/-- After a signal the router is not in the wait. -/
theorem router_signal_ne (s : Router ρ) : s.signal.router ≠ .parked := by
  rw [signal]
  split
  · simp
  · assumption

/-- A call in progress goes on from where it is. -/
theorem step_call {s s' : Router ρ} {i : ℕ} (h : s.step (.call i) = some s') :
    ∃ c, s.calls[i]? = some c ∧ s.stepCall i c = some s' := by
  rw [step] at h
  split at h
  · cases h
  · rename_i c hc
    exact ⟨c, hc, h⟩

/-- A wait ends that was going on. -/
theorem step_wakeup {s s' : Router ρ} (h : s.step .wakeup = some s') :
    s.router = .parked ∧ s' = { s with router := .signalled } := by
  rw [step] at h
  split at h
  · rename_i hparked
    exact ⟨hparked, (Option.some.inj h).symm⟩
  · cases h

theorem acquire_eq_some {s s' : Router ρ} {i : ℕ} {pc : CallPc} (h : s.acquire i pc = some s') :
    s.m_routeMutex = false ∧ s' = { s.goto i pc with m_routeMutex := true } := by
  rw [acquire] at h
  by_cases hmutex : s.m_routeMutex = true
  · rw [if_pos hmutex] at h
    cases h
  · rw [if_neg hmutex] at h
    exact ⟨by simpa using hmutex, (Option.some.inj h).symm⟩

/-- A call that is not a producer about to signal may move on. -/
private theorem signalling_set {l : List CallPc} {i : ℕ} {c : CallPc} (hc : l[i]? = some c)
    (hother : ¬c.Notifying) (pc : CallPc) (h : ∃ c ∈ l, c.Notifying) :
    ∃ c ∈ l.set i pc, c.Notifying := by
  obtain ⟨x, hx, hnotifying⟩ := h
  exact ⟨x, mem_set_of_ne hc hx fun heq => hother (heq ▸ hnotifying), hnotifying⟩

private theorem awake_goto {s : Router ρ} {i : ℕ} {c : CallPc} (hs : s.Awake)
    (hc : s.calls[i]? = some c) (hother : ¬c.Notifying) (pc : CallPc) : (s.goto i pc).Awake := by
  intro hparked
  exact (hs hparked).imp_right (signalling_set hc hother pc)

/-- A step of a call loses no wakeup: after a push the producer has yet to signal, and after its
signal the router is awake. -/
theorem awake_stepCall {s s' : Router ρ} {i : ℕ} {c : CallPc} (hs : s.Awake)
    (hc : s.calls[i]? = some c) (h : s.stepCall i c = some s') : s'.Awake := by
  have hlt := (List.getElem?_eq_some_iff.mp hc).1
  cases c with
  | pushed =>
    obtain ⟨-, rfl⟩ := acquire_eq_some h
    intro _
    exact Or.inr ⟨.notify, List.mem_set hlt _, Or.inr rfl⟩
  | notify | stopSignal =>
    obtain rfl := Option.some.inj h
    intro hparked
    exact absurd hparked s.router_signal_ne
  | start | stop =>
    obtain ⟨-, rfl⟩ := acquire_eq_some h
    exact awake_goto hs hc (by decide) _
  | setAlive =>
    rw [stepCall] at h
    split at h
    · obtain rfl := Option.some.inj h
      exact awake_goto hs hc (by decide) _
    · obtain rfl := Option.some.inj h
      exact awake_goto hs hc (by decide) _
  | startThread =>
    obtain rfl := Option.some.inj h
    intro hparked
    have hold : s.router = .parked := by
      by_cases hnew : s.router = .new
      · simp [hnew] at hparked
      · simpa [hnew] using hparked
    exact awake_goto hs hc (by decide) .unlock hold
  | clearAlive =>
    obtain rfl := Option.some.inj h
    exact awake_goto hs hc (by decide) _
  | unlock =>
    obtain rfl := Option.some.inj h
    intro hparked
    refine (hs hparked).imp_right ?_
    rintro ⟨x, hx, hnotifying⟩
    refine ⟨x, mem_eraseIdx_of_ne hc hx ?_, hnotifying⟩
    rintro rfl
    exact absurd hnotifying (by decide)

/-- The router goes to sleep in one place only. -/
theorem stepRouter_parked {s s' : Router ρ} (h : s.stepRouter s.router = some s')
    (hparked : s'.router = .parked) :
    s.router = .wait ∧ s.m_stayAlive = true ∧
      s' = { s with m_routeMutex := false, router := .parked } := by
  cases hpc : s.router with
  | new | parked | exited =>
    rw [hpc] at h
    cases h
  | loop | checkQueue | drain =>
    rw [hpc] at h
    obtain rfl := Option.some.inj h
    dsimp only at hparked
    split at hparked <;> cases hparked
  | tryPop =>
    rw [hpc, stepRouter] at h
    split at h <;> obtain rfl := Option.some.inj h <;> cases hparked
  | lock | signalled =>
    rw [hpc, stepRouter] at h
    split at h
    · cases h
    · obtain rfl := Option.some.inj h
      cases hparked
  | wait =>
    rw [hpc, stepRouter] at h
    by_cases halive : s.m_stayAlive = true
    · rw [if_pos halive] at h
      exact ⟨rfl, halive, (Option.some.inj h).symm⟩
    · rw [if_neg halive] at h
      obtain rfl := Option.some.inj h
      cases hparked
  | unlock =>
    rw [hpc] at h
    obtain rfl := Option.some.inj h
    cases hparked

/-- When the router goes to sleep in time, nothing is lost. -/
theorem awake_stepRouter {s s' : Router ρ} (hok : s.WaitsInTime .router)
    (h : s.stepRouter s.router = some s') : s'.Awake := by
  intro hparked
  obtain ⟨hpc, halive, rfl⟩ := stepRouter_parked h hparked
  exact hok rfl hpc halive

/-- A step allowed by the condition loses no wakeup. -/
theorem awake_step (s : Router ρ) (a : Action ρ) (s' : Router ρ) (hs : s.Awake)
    (hok : s.WaitsInTime a) (h : step s a = some s') : s'.Awake := by
  cases a with
  | receivedNGPPacket packet =>
    obtain rfl := Option.some.inj h
    exact fun _ => Or.inr ⟨.pushed, by simp, Or.inl rfl⟩
  | startThread | stopThread =>
    obtain rfl := Option.some.inj h
    intro hparked
    refine (hs hparked).imp_right ?_
    rintro ⟨c, hc, hnotifying⟩
    exact ⟨c, List.mem_append_left _ hc, hnotifying⟩
  | call i =>
    obtain ⟨c, hc, h⟩ := step_call h
    exact awake_stepCall hs hc h
  | router => exact awake_stepRouter hok h
  | wakeup =>
    obtain ⟨-, rfl⟩ := step_wakeup h
    intro hparked
    cases hparked

/-- Entering the wait too late is a lost wakeup. -/
theorem lostWakeup_of_late (s : Router ρ) (a : Action ρ) (h : ¬s.WaitsInTime a) :
    ∃ s', step s a = some s' ∧ s'.LostWakeup := by
  simp only [WaitsInTime, not_forall, not_or] at h
  obtain ⟨rfl, hpc, halive, hqueue, hnobody⟩ := h
  refine ⟨{ s with m_routeMutex := false, router := .parked }, ?_, rfl, hqueue, hnobody⟩
  rw [step, hpc, stepRouter, if_pos halive]

/-- **When no wakeup is lost.**  Whatever the memory held before construction, a run reaches no
state with a lost wakeup exactly when the router, each time it enters the wait, finds the queue
empty or some producer between its push and its signal. -/
theorem no_lost_wakeup_iff (m_stayAlive : Bool) (as : List (Action ρ)) :
    (∀ bs s, bs <+: as → run step (init m_stayAlive) bs = some s → ¬s.LostWakeup) ↔
      AllSteps step WaitsInTime (init m_stayAlive) as :=
  run_safe_iff awake_step (fun _ hs => not_lostWakeup_iff.mpr hs) lostWakeup_of_late
    (fun hparked => by cases hparked)

/-- The router finds the queue empty; a packet is pushed and signalled while nobody waits; the
router takes the mutex and waits. -/
theorem lost_wakeup :
    ∃ s, run step (init false) [.startThread, .call 0, .call 0, .call 0, .call 0, .router, .router,
        .receivedNGPPacket 7, .call 0, .call 0, .call 0, .router, .router] = some s ∧
      s.LostWakeup ∧ s.m_messageQueue = [7] ∧ s.calls = [] :=
  ⟨⟨[7], true, false, .parked, [], []⟩, rfl, ⟨rfl, by decide, by simp [Signalling]⟩, rfl, rfl⟩

end Router

end CppCore.MessageRouter
