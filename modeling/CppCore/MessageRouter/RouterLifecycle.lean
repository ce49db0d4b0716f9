import CppCore.MessageRouter.RouterThread

/-!
# The life of the router thread

`startThread` starts the router thread unless `m_stayAlive` says that it runs already, and the
constructor leaves `m_stayAlive` as the memory was.  `stopThread` clears it and signals the router
once, both under the mutex.

The threads are those of `RouterThread`; a history beside them remembers what the calls did.  A
second start of a thread is refused, so the router thread is started by the first
`pal_thread_start_thread` that gets through.

## Main definitions

* `Lifecycle`, `Lifecycle.step` — the threads and their history.
* `Router.Exclusive` — one thread at most is between taking and releasing the mutex.
* `Lifecycle.Lives` — a returned `startThread` has started the thread, and a stopped one is awake.
* `Lifecycle.ReturnsStarted` — no `startThread` returns that took a new thread for a running one.
* `Lifecycle.lives_iff` — which runs keep to that.
* `Lifecycle.lives_of_cleared` — all of them, had the constructor cleared `m_stayAlive`.
-/

namespace CppCore.MessageRouter

open Lib

variable {ρ : Type}

/-! ## The mutex -/

/-- A call stands between taking and releasing the mutex. -/
def CallPc.holds : CallPc → Bool
  | .pushed | .start | .stop => false
  | .notify | .setAlive | .startThread | .clearAlive | .stopSignal | .unlock => true

/-- So does the router thread. -/
def RouterPc.holds : RouterPc → Bool
  | .wait | .unlock => true
  | _ => false

namespace Router

/-- The mutex is taken if and only if some thread has it, and no two threads have it. -/
def Exclusive (s : Router ρ) : Prop :=
  s.calls.countP CallPc.holds + s.router.holds.toNat = s.m_routeMutex.toNat

/-- While a call has the mutex, or nobody has it, no other call has it. -/
theorem Exclusive.others_free {s : Router ρ} (h : s.Exclusive) {i : ℕ} {c : CallPc}
    (hc : s.calls[i]? = some c) (hholds : c.holds = true ∨ s.m_routeMutex = false) {x : CallPc}
    (hx : x ∈ s.calls.eraseIdx i) : x.holds = false := by
  have hcount := countP_eq_eraseIdx CallPc.holds hc
  have hle := Bool.toNat_le s.m_routeMutex
  have hzero : (s.calls.eraseIdx i).countP CallPc.holds = 0 := by
    rw [Exclusive] at h
    rcases hholds with hholds | hfree
    · rw [hholds, Bool.toNat_true] at hcount
      omega
    · rw [hfree, Bool.toNat_false] at h
      omega
  simpa using List.countP_eq_zero.mp hzero x hx

/-- A signal changes nothing but where the router thread is. -/
theorem signal_eq (s : Router ρ) :
    s.signal = { s with router := if s.router = .parked then .signalled else s.router } := by
  by_cases hparked : s.router = .parked <;> simp [signal, hparked]

@[simp] theorem m_stayAlive_signal (s : Router ρ) : s.signal.m_stayAlive = s.m_stayAlive := by
  rw [signal_eq]

@[simp] theorem calls_signal (s : Router ρ) : s.signal.calls = s.calls := by
  rw [signal_eq]

@[simp] theorem m_routeMutex_signal (s : Router ρ) : s.signal.m_routeMutex = s.m_routeMutex := by
  rw [signal_eq]

@[simp] theorem holds_router_signal (s : Router ρ) : s.signal.router.holds = s.router.holds := by
  by_cases hparked : s.router = .parked <;> simp [signal_eq, hparked, RouterPc.holds]

@[simp] theorem router_signal_eq_new (s : Router ρ) : s.signal.router = .new ↔ s.router = .new := by
  by_cases hparked : s.router = .parked <;> simp [signal_eq, hparked]

/-- What a step of the router thread keeps, and what it does to the mutex. -/
structure RouterStep (s s' : Router ρ) : Prop where
  /-- `m_stayAlive` is as it was. -/
  alive : s'.m_stayAlive = s.m_stayAlive
  /-- The calls are as they were. -/
  calls : s'.calls = s.calls
  /-- The thread was started before. -/
  started : s.router ≠ .new
  /-- It is not new again. -/
  notNew : s'.router ≠ .new
  /-- It has the mutex before and after, or not, or takes a free mutex, or releases its own. -/
  mutex : s'.m_routeMutex = s.m_routeMutex ∧ s'.router.holds = s.router.holds ∨
    s.m_routeMutex = false ∧ s.router.holds = false ∧ s'.m_routeMutex = true ∧
      s'.router.holds = true ∨
    s.router.holds = true ∧ s'.m_routeMutex = false ∧ s'.router.holds = false

theorem routerStep_of_stepRouter {s s' : Router ρ} (h : s.stepRouter s.router = some s') :
    s.RouterStep s' := by
  cases hpc : s.router with
  | new | parked | exited =>
    rw [hpc] at h
    cases h
  | loop =>
    rw [hpc] at h
    obtain rfl := Option.some.inj h
    refine ⟨rfl, rfl, by simp [hpc], ?_, .inl ⟨rfl, ?_⟩⟩ <;> dsimp only <;> split <;>
      simp [hpc, RouterPc.holds]
  | checkQueue | drain =>
    rw [hpc] at h
    obtain rfl := Option.some.inj h
    refine ⟨rfl, rfl, by simp [hpc], ?_, .inl ⟨rfl, ?_⟩⟩ <;> dsimp only <;> split <;>
      simp [hpc, RouterPc.holds]
  | tryPop =>
    rw [hpc, stepRouter] at h
    split at h <;> obtain rfl := Option.some.inj h <;>
      exact ⟨rfl, rfl, by simp [hpc], by simp, .inl ⟨rfl, by simp [hpc, RouterPc.holds]⟩⟩
  | lock | signalled =>
    rw [hpc, stepRouter] at h
    split at h
    · cases h
    · rename_i hfree
      obtain rfl := Option.some.inj h
      refine ⟨rfl, rfl, by simp [hpc], by simp, .inr (.inl ⟨by simpa using hfree, ?_, rfl, rfl⟩)⟩
      rw [hpc]
      rfl
  | wait =>
    rw [hpc, stepRouter] at h
    split at h
    · obtain rfl := Option.some.inj h
      exact ⟨rfl, rfl, by simp [hpc], by simp, .inr (.inr ⟨by rw [hpc]; rfl, rfl, rfl⟩)⟩
    · obtain rfl := Option.some.inj h
      exact ⟨rfl, rfl, by simp [hpc], by simp, .inl ⟨rfl, by rw [hpc]; rfl⟩⟩
  | unlock =>
    rw [hpc] at h
    obtain rfl := Option.some.inj h
    exact ⟨rfl, rfl, by simp [hpc], by simp, .inr (.inr ⟨by rw [hpc]; rfl, rfl, rfl⟩)⟩

/-- A step of a call keeps the mutex exclusive. -/
theorem exclusive_stepCall {s s' : Router ρ} {i : ℕ} {c : CallPc} (h : s.Exclusive)
    (hc : s.calls[i]? = some c) (hstep : s.stepCall i c = some s') : s'.Exclusive := by
  have hcount := countP_eq_eraseIdx CallPc.holds hc
  have hset := countP_set_eq CallPc.holds hc
  have hle := Bool.toNat_le s.m_routeMutex
  rw [Exclusive] at h ⊢
  cases c with
  | pushed | start | stop =>
    obtain ⟨hfree, rfl⟩ := acquire_eq_some hstep
    simp only [goto, hset, hfree, CallPc.holds, Bool.toNat_true, Bool.toNat_false] at h hcount ⊢
    omega
  | notify | stopSignal =>
    obtain rfl := Option.some.inj hstep
    simp only [goto, calls_signal, hset, CallPc.holds, m_routeMutex_signal,
      holds_router_signal] at h hcount ⊢
    omega
  | setAlive =>
    rw [stepCall] at hstep
    split at hstep <;> obtain rfl := Option.some.inj hstep <;>
      · simp only [goto, hset, CallPc.holds] at h hcount ⊢
        omega
  | startThread =>
    obtain rfl := Option.some.inj hstep
    have hrouter :
        (if s.router = .new then RouterPc.loop else s.router).holds = s.router.holds := by
      split
      · rename_i hnew
        rw [hnew]
        rfl
      · rfl
    simp only [goto, hset, CallPc.holds, hrouter] at h hcount ⊢
    omega
  | clearAlive =>
    obtain rfl := Option.some.inj hstep
    simp only [goto, hset, CallPc.holds] at h hcount ⊢
    omega
  | unlock =>
    obtain rfl := Option.some.inj hstep
    simp only [CallPc.holds, Bool.toNat_true, Bool.toNat_false] at hcount ⊢
    omega

/-- **One thread at most has the mutex**, in every run. -/
theorem exclusive_step (s : Router ρ) (a : Action ρ) (s' : Router ρ) (h : s.Exclusive)
    (hstep : s.step a = some s') : s'.Exclusive := by
  cases a with
  | receivedNGPPacket packet | startThread | stopThread =>
    obtain rfl := Option.some.inj hstep
    simpa [Exclusive, CallPc.holds] using h
  | call i =>
    obtain ⟨c, hc, hstep⟩ := step_call hstep
    exact exclusive_stepCall h hc hstep
  | router =>
    have hrouter := routerStep_of_stepRouter hstep
    have hle := Bool.toNat_le s.m_routeMutex
    rw [Exclusive] at h ⊢
    rw [hrouter.calls]
    rcases hrouter.mutex with ⟨hmutex, hholds⟩ | ⟨hfree, hout, htaken, hin⟩ | ⟨hin, hfree, hout⟩
    · rw [hmutex, hholds]
      exact h
    · rw [htaken, hin]
      rw [hfree, hout] at h
      simpa using h
    · rw [hfree, hout]
      rw [hin, Bool.toNat_true] at h
      rw [Bool.toNat_false]
      omega
  | wakeup =>
    obtain ⟨hparked, rfl⟩ := step_wakeup hstep
    simpa [Exclusive, hparked, RouterPc.holds] using h

/-- After `stopThread`: the flag is cleared, and the thread does not wait. -/
def Stopped (s : Router ρ) : Prop := s.m_stayAlive = false ∧ s.router ≠ .parked

/-- The router thread does not go to sleep while the flag is cleared. -/
theorem Stopped.stepRouter {s s' : Router ρ} (h : s.Stopped)
    (hstep : s.stepRouter s.router = some s') : s'.Stopped := by
  refine ⟨(routerStep_of_stepRouter hstep).alive.trans h.1, ?_⟩
  intro hparked
  have halive := (stepRouter_parked hstep hparked).2.1
  rw [h.1] at halive
  cases halive

end Router

/-! ## The history -/

/-- The kind of a call. -/
inductive CallKind
  /-- `receivedNGPPacket`. -/
  | receivedNGPPacket
  /-- `startThread`; `missed` if it found `m_stayAlive` set and the thread was new. -/
  | startThread (missed : Bool)
  /-- `stopThread`. -/
  | stopThread
  deriving DecidableEq

/-- The threads, and what a history of the calls remembers. -/
structure Lifecycle (ρ : Type) where
  /-- The threads. -/
  threads : Router ρ
  /-- The kind of the call that took the mutex last. -/
  holder : CallKind
  /-- How often the router thread was started. -/
  starts : ℕ
  /-- Some `startThread` has returned. -/
  startReturned : Bool
  /-- Some `stopThread` has released the mutex, and no `startThread` has tested the flag since. -/
  stopped : Bool

namespace Lifecycle

/-- A router that was just constructed, in memory that held `m_stayAlive` in the place of the
flag. -/
def init (m_stayAlive : Bool) : Lifecycle ρ :=
  ⟨Router.init m_stayAlive, .receivedNGPPacket, 0, false, false⟩

/-- What the history remembers of a step of a call at the given place. -/
def remember (l : Lifecycle ρ) : CallPc → Lifecycle ρ
  | .pushed => { l with holder := .receivedNGPPacket }
  | .start => { l with holder := .startThread false }
  | .stop => { l with holder := .stopThread }
  | .setAlive =>
    { l with
      holder := .startThread (l.threads.m_stayAlive && l.threads.router = .new), stopped := false }
  | .startThread => { l with starts := if l.threads.router = .new then l.starts + 1 else l.starts }
  | .unlock =>
    match l.holder with
    | .receivedNGPPacket => l
    | .startThread _ => { l with startReturned := true }
    | .stopThread => { l with stopped := true }
  | .notify | .clearAlive | .stopSignal => l

/-- What the history remembers of a step. -/
def rememberAction (l : Lifecycle ρ) : Action ρ → Lifecycle ρ
  | .call i => (l.threads.calls[i]?).elim l l.remember
  | _ => l

/-- One step. -/
def step (l : Lifecycle ρ) (a : Action ρ) : Option (Lifecycle ρ) :=
  (l.threads.step a).map fun s => { l.rememberAction a with threads := s }

theorem step_eq_some {l l' : Lifecycle ρ} {a : Action ρ} (h : l.step a = some l') :
    ∃ s, l.threads.step a = some s ∧ l' = { l.rememberAction a with threads := s } := by
  obtain ⟨s, hs, heq⟩ := Option.map_eq_some_iff.mp h
  exact ⟨s, hs, heq.symm⟩

theorem rememberAction_call {l : Lifecycle ρ} {i : ℕ} {c : CallPc}
    (hc : l.threads.calls[i]? = some c) : l.rememberAction (.call i) = l.remember c := by
  simp [rememberAction, hc]

/-- **The history is only a history**: the threads take the steps they take without it. -/
theorem run_threads (l : Lifecycle ρ) (as : List (Action ρ)) :
    (run step l as).map threads = run Router.step l.threads as := by
  induction as generalizing l with
  | nil => rfl
  | cons a as ih =>
    rw [run, run, step]
    cases l.threads.step a with
    | none => rfl
    | some s => exact ih { l.rememberAction a with threads := s }

/-- What is expected of a state: once a `startThread` has returned, the thread was started once; and
as long as it is stopped, it is not in the wait without a signal. -/
def Lives (l : Lifecycle ρ) : Prop :=
  (l.startReturned = true → l.starts = 1) ∧ (l.stopped = true → l.threads.router ≠ .parked)

/-- If a `startThread` returns, it has not found `m_stayAlive` set while the thread was new. -/
def ReturnsStarted (l : Lifecycle ρ) (a : Action ρ) : Prop :=
  ∀ i, a = .call i → l.threads.calls[i]? = some .unlock → l.holder ≠ .startThread true

/-! ## Invariants -/

/-- What a call with the mutex has achieved, at each place. -/
def Held (l : Lifecycle ρ) : CallPc → Prop
  | .pushed | .start | .stop => True
  | .notify => l.holder = .receivedNGPPacket
  | .setAlive | .startThread => l.holder = .startThread false
  | .clearAlive => l.holder = .stopThread
  | .stopSignal => l.holder = .stopThread ∧ l.threads.m_stayAlive = false
  | .unlock =>
    match l.holder with
    | .receivedNGPPacket => True
    | .startThread missed => missed = true ↔ l.threads.router = .new
    | .stopThread => l.threads.Stopped

/-- What holds in every state of every run. -/
structure Inv (l : Lifecycle ρ) : Prop where
  /-- The mutex is exclusive. -/
  exclusive : l.threads.Exclusive
  /-- The call with the mutex has achieved what it should. -/
  held : ∀ c ∈ l.threads.calls, c.holds = true → l.Held c
  /-- The thread was started once, if it is not new. -/
  starts : l.starts = if l.threads.router = .new then 0 else 1
  /-- A thread that is stopped does not wait. -/
  stopped : l.stopped = true → l.threads.Stopped

theorem inv_init (m_stayAlive : Bool) : (init m_stayAlive : Lifecycle ρ).Inv where
  exclusive := rfl
  held := by
    intro c hc
    cases hc
  starts := rfl
  stopped := by
    intro h
    cases h

/-- The call that goes on is the only one with the mutex: nothing needs to be shown of others. -/
private theorem held_goto {l : Lifecycle ρ} (h : l.Inv) {i : ℕ} {c : CallPc}
    (hc : l.threads.calls[i]? = some c)
    (hholds : c.holds = true ∨ l.threads.m_routeMutex = false) (pc : CallPc) {l' : Lifecycle ρ}
    (hcalls : l'.threads.calls = l.threads.calls.set i pc) (hpc : l'.Held pc) :
    ∀ x ∈ l'.threads.calls, x.holds = true → l'.Held x := by
  intro x hx hxholds
  rw [hcalls] at hx
  rcases (mem_set_iff_eraseIdx hc).mp hx with rfl | hother
  · exact hpc
  · rw [h.exclusive.others_free hc hholds hother] at hxholds
    cases hxholds

/-- A call that releases the mutex hands over what it has achieved. -/
private theorem inv_unlock {l : Lifecycle ρ} (h : l.Inv) {i : ℕ}
    (hc : l.threads.calls[i]? = some .unlock) :
    Inv { l.remember .unlock with
      threads :=
        { l.threads with m_routeMutex := false, calls := l.threads.calls.eraseIdx i } } where
  exclusive := Router.exclusive_stepCall h.exclusive hc rfl
  held := by
    intro x hx hholds
    rw [h.exclusive.others_free hc (.inl rfl) hx] at hholds
    cases hholds
  starts := by
    have hstarts := h.starts
    cases hholder : l.holder <;> simpa [remember, hholder] using hstarts
  stopped := by
    intro hstopped
    have hheld := h.held .unlock (List.mem_of_getElem? hc) rfl
    cases hholder : l.holder with
    | stopThread =>
      simp only [Held, hholder] at hheld
      exact hheld
    | receivedNGPPacket | startThread missed =>
      simp only [remember, hholder] at hstopped
      exact h.stopped hstopped

/-- A `startThread` that tests the flag goes on to start the thread, or is about to return. -/
private theorem inv_setAlive {l : Lifecycle ρ} (h : l.Inv) {i : ℕ}
    (hc : l.threads.calls[i]? = some .setAlive) {s : Router ρ}
    (hstep : l.threads.stepCall i .setAlive = some s) :
    Inv { l.remember .setAlive with threads := s } := by
  have hexclusive := Router.exclusive_stepCall h.exclusive hc hstep
  rw [Router.stepCall] at hstep
  split at hstep
  · rename_i halive
    obtain rfl := Option.some.inj hstep
    refine ⟨hexclusive, held_goto h hc (.inl rfl) .unlock rfl ?_, h.starts, ?_⟩
    · simp [Held, remember, halive, Router.goto]
    · intro hstopped
      cases hstopped
  · rename_i hdead
    obtain rfl := Option.some.inj hstep
    refine ⟨hexclusive, held_goto h hc (.inl rfl) .startThread rfl ?_, h.starts, ?_⟩
    · simp [Held, remember, hdead]
    · intro hstopped
      cases hstopped

/-- A step of a call keeps the invariant. -/
theorem inv_call {l : Lifecycle ρ} (h : l.Inv) {i : ℕ} {c : CallPc}
    (hc : l.threads.calls[i]? = some c) {s : Router ρ} (hstep : l.threads.stepCall i c = some s) :
    Inv { l.remember c with threads := s } := by
  have hexclusive := Router.exclusive_stepCall h.exclusive hc hstep
  have hheld := h.held c (List.mem_of_getElem? hc)
  cases c with
  | pushed | start | stop =>
    obtain ⟨hfree, rfl⟩ := Router.acquire_eq_some hstep
    exact ⟨hexclusive, held_goto h hc (.inr hfree) _ rfl rfl, h.starts, h.stopped⟩
  | notify =>
    obtain rfl := Option.some.inj hstep
    have hholder : l.holder = .receivedNGPPacket := hheld rfl
    refine ⟨hexclusive, held_goto h hc (.inl rfl) .unlock ?_ ?_, ?_, ?_⟩
    · simp [Router.goto]
    · simp [Held, remember, hholder]
    · simpa [remember, Router.goto] using h.starts
    · intro hstopped
      exact ⟨by simpa [Router.goto] using (h.stopped hstopped).1, l.threads.router_signal_ne⟩
  | setAlive => exact inv_setAlive h hc hstep
  | startThread =>
    obtain rfl := Option.some.inj hstep
    have hholder : l.holder = .startThread false := hheld rfl
    refine ⟨hexclusive, held_goto h hc (.inl rfl) .unlock rfl ?_, ?_, ?_⟩
    · by_cases hnew : l.threads.router = .new <;> simp [Held, remember, hholder, hnew]
    · have hstarts := h.starts
      by_cases hnew : l.threads.router = .new
      · simpa [remember, hnew] using hstarts
      · simpa [remember, hnew] using hstarts
    · intro hstopped
      refine ⟨(h.stopped hstopped).1, ?_⟩
      have hawake := (h.stopped hstopped).2
      by_cases hnew : l.threads.router = .new <;> simp [hnew, hawake]
  | clearAlive =>
    obtain rfl := Option.some.inj hstep
    exact ⟨hexclusive, held_goto h hc (.inl rfl) .stopSignal rfl ⟨hheld rfl, rfl⟩, h.starts,
      fun hstopped => ⟨rfl, (h.stopped hstopped).2⟩⟩
  | stopSignal =>
    obtain rfl := Option.some.inj hstep
    obtain ⟨hholder, hdead⟩ := hheld rfl
    have hstop : (l.threads.signal.goto i .unlock).Stopped :=
      ⟨by simpa [Router.goto] using hdead, l.threads.router_signal_ne⟩
    refine ⟨hexclusive, held_goto h hc (.inl rfl) .unlock ?_ ?_, ?_, fun _ => hstop⟩
    · simp [Router.goto]
    · simpa [Held, remember, hholder] using hstop
    · simpa [remember, Router.goto] using h.starts
  | unlock =>
    obtain rfl := Option.some.inj hstep
    exact inv_unlock h hc

/-- A step that changes no call, flag or history keeps the invariant, if it keeps the thread started
and stopped. -/
private theorem inv_frame {l : Lifecycle ρ} (h : l.Inv) {s : Router ρ} (hexclusive : s.Exclusive)
    (hcalls : ∀ x ∈ s.calls, x.holds = true → x ∈ l.threads.calls)
    (halive : s.m_stayAlive = l.threads.m_stayAlive)
    (hnew : s.router = .new ↔ l.threads.router = .new)
    (hstopped : l.threads.Stopped → s.Stopped) : Inv { l with threads := s } where
  exclusive := hexclusive
  held := by
    intro x hx hholds
    have hheld := h.held x (hcalls x hx hholds) hholds
    cases x with
    | pushed | start | stop => trivial
    | notify | setAlive | startThread | clearAlive => exact hheld
    | stopSignal => exact ⟨hheld.1, halive.trans hheld.2⟩
    | unlock =>
      cases hholder : l.holder with
      | receivedNGPPacket => simp [Held]
      | startThread missed => simpa [Held, hholder, hnew] using hheld
      | stopThread =>
        simp only [Held, hholder] at hheld ⊢
        exact hstopped hheld
  starts := by simpa [hnew] using h.starts
  stopped := fun hs => hstopped (h.stopped hs)

/-- **Every step keeps the invariant.** -/
theorem inv_step (l : Lifecycle ρ) (a : Action ρ) (l' : Lifecycle ρ) (h : l.Inv)
    (hstep : l.step a = some l') : l'.Inv := by
  obtain ⟨s, hs, rfl⟩ := step_eq_some hstep
  have hexclusive := Router.exclusive_step _ _ _ h.exclusive hs
  cases a with
  | receivedNGPPacket packet | startThread | stopThread =>
    obtain rfl := Option.some.inj hs
    refine inv_frame h hexclusive ?_ rfl Iff.rfl id
    intro x hx hholds
    rcases List.mem_append.mp hx with hold | hcall
    · exact hold
    · rw [List.mem_singleton.mp hcall] at hholds
      cases hholds
  | call i =>
    obtain ⟨c, hc, hs⟩ := Router.step_call hs
    rw [rememberAction_call hc]
    exact inv_call h hc hs
  | router =>
    have hrouter := Router.routerStep_of_stepRouter hs
    refine inv_frame h hexclusive ?_ hrouter.alive ?_ fun hstopped => hstopped.stepRouter hs
    · intro x hx _
      rwa [← hrouter.calls]
    · exact iff_of_false hrouter.notNew hrouter.started
  | wakeup =>
    obtain ⟨hparked, rfl⟩ := Router.step_wakeup hs
    refine inv_frame h hexclusive (fun x hx _ => hx) rfl ?_ ?_
    · simp [hparked]
    · intro hstopped
      exact absurd hparked hstopped.2

/-! ## Which runs keep to the lifecycle -/

/-- Some `startThread` has returned only if the thread was started. -/
def Returned (l : Lifecycle ρ) : Prop := l.startReturned = true → l.threads.router ≠ .new

/-- What is remembered of returned calls changes when a call returns. -/
theorem startReturned_remember (l : Lifecycle ρ) (c : CallPc) :
    (l.remember c).startReturned = true →
      l.startReturned = true ∨ c = .unlock ∧ ∃ missed, l.holder = .startThread missed := by
  intro h
  cases c with
  | unlock =>
    cases hholder : l.holder with
    | startThread missed => exact Or.inr ⟨rfl, missed, rfl⟩
    | receivedNGPPacket | stopThread => exact Or.inl (by simpa [remember, hholder] using h)
  | pushed | notify | start | setAlive | startThread | stop | clearAlive | stopSignal =>
    exact Or.inl h

/-- A thread that was started is not new again. -/
theorem router_ne_new_step {s s' : Router ρ} {a : Action ρ} (h : s.router ≠ .new)
    (hstep : s.step a = some s') : s'.router ≠ .new := by
  cases a with
  | receivedNGPPacket packet | startThread | stopThread =>
    obtain rfl := Option.some.inj hstep
    exact h
  | router => exact (Router.routerStep_of_stepRouter hstep).notNew
  | wakeup =>
    obtain ⟨-, rfl⟩ := Router.step_wakeup hstep
    simp
  | call i =>
    obtain ⟨c, -, hstep⟩ := Router.step_call hstep
    cases c with
    | pushed | start | stop =>
      obtain ⟨-, rfl⟩ := Router.acquire_eq_some hstep
      exact h
    | notify | stopSignal =>
      obtain rfl := Option.some.inj hstep
      simpa [Router.goto] using h
    | setAlive =>
      rw [Router.stepCall] at hstep
      split at hstep <;> obtain rfl := Option.some.inj hstep <;> exact h
    | startThread =>
      obtain rfl := Option.some.inj hstep
      simp [h]
    | clearAlive | unlock =>
      obtain rfl := Option.some.inj hstep
      exact h

/-- A call that returns in accordance with the condition has started the thread. -/
theorem returned_step (l : Lifecycle ρ) (a : Action ρ) (l' : Lifecycle ρ) (h : l.Inv)
    (hreturned : l.Returned) (hok : l.ReturnsStarted a) (hstep : l.step a = some l') :
    l'.Returned := by
  obtain ⟨s, hs, rfl⟩ := step_eq_some hstep
  intro hnow
  have hstarted : l.threads.router ≠ .new := by
    cases a with
    | receivedNGPPacket packet | startThread | stopThread | router | wakeup =>
      exact hreturned hnow
    | call i =>
      obtain ⟨c, hc, -⟩ := Router.step_call hs
      rw [rememberAction_call hc] at hnow
      rcases startReturned_remember l c hnow with hold | hnew
      · exact hreturned hold
      · obtain ⟨rfl, missed, hholder⟩ := hnew
        have hheld := h.held .unlock (List.mem_of_getElem? hc) rfl
        simp only [Held, hholder] at hheld
        intro hnew
        have hmissed : missed = true := hheld.mpr hnew
        exact hok i rfl hc (hmissed ▸ hholder)
  exact router_ne_new_step hstarted hs

theorem Inv.lives {l : Lifecycle ρ} (h : l.Inv) (hreturned : l.Returned) : l.Lives := by
  refine ⟨fun hstart => ?_, fun hstopped => (h.stopped hstopped).2⟩
  rw [h.starts, if_neg (hreturned hstart)]

/-- What holds in every state of the runs that keep to the condition. -/
def Kept (l : Lifecycle ρ) : Prop := l.Inv ∧ l.Returned

theorem kept_init (m_stayAlive : Bool) : (init m_stayAlive : Lifecycle ρ).Kept := by
  refine ⟨inv_init m_stayAlive, ?_⟩
  intro hreturned
  cases hreturned

theorem kept_step (l : Lifecycle ρ) (a : Action ρ) (l' : Lifecycle ρ) (h : l.Kept)
    (hok : l.ReturnsStarted a) (hstep : l.step a = some l') : l'.Kept :=
  ⟨inv_step l a l' h.1 hstep, returned_step l a l' h.1 h.2 hok hstep⟩

/-- A `startThread` that took the new thread for a running one returns without having started it. -/
theorem not_lives_of_returns (l : Lifecycle ρ) (a : Action ρ) (h : l.Inv)
    (hnot : ¬l.ReturnsStarted a) : ∃ l', l.step a = some l' ∧ ¬l'.Lives := by
  simp only [ReturnsStarted, not_forall, not_not] at hnot
  obtain ⟨i, rfl, hc, hholder⟩ := hnot
  have hheld := h.held .unlock (List.mem_of_getElem? hc) rfl
  simp only [Held, hholder, true_iff] at hheld
  have hstarts := h.starts
  rw [if_pos hheld] at hstarts
  refine ⟨{ l.rememberAction (.call i) with
    threads :=
      { l.threads with m_routeMutex := false, calls := l.threads.calls.eraseIdx i } }, ?_, ?_⟩
  · simp [step, Router.step, hc, Router.stepCall]
  · intro hlives
    have hone := hlives.1 (by simp [rememberAction, hc, remember, hholder])
    simp [rememberAction, hc, remember, hholder, hstarts] at hone

/-- **When the lifecycle is kept.**  Whatever the memory held before construction, in all states a
run reaches a returned `startThread` has started the router thread once and a stopped thread does
not wait, exactly if no `startThread` returns in it that found `m_stayAlive` set while the thread
was new. -/
theorem lives_iff (m_stayAlive : Bool) (as : List (Action ρ)) :
    (∀ bs l, bs <+: as → run step (init m_stayAlive) bs = some l → l.Lives) ↔
      AllSteps step ReturnsStarted (init m_stayAlive) as := by
  have hsafe : ∀ l : Lifecycle ρ, l.Kept → ¬¬l.Lives := fun l hl hnot => hnot (hl.1.lives hl.2)
  have hexact : ∀ (l : Lifecycle ρ) (a : Action ρ), l.Kept → ¬l.ReturnsStarted a →
      ∃ l', l.step a = some l' ∧ ¬l'.Lives := fun l a hl => not_lives_of_returns l a hl.1
  rw [← run_safe_iff_of_inv kept_step hsafe hexact (kept_init m_stayAlive)]
  simp only [not_not]

/-- The memory held a set flag: the first `startThread` returns, and nothing was started. -/
theorem not_forall_lives :
    ¬∀ (m_stayAlive : Bool) (as : List (Action ℕ)) (l : Lifecycle ℕ),
      run step (init m_stayAlive) as = some l → l.Lives := by
  intro h
  have hlives := h true [.startThread, .call 0, .call 0, .call 0] _ rfl
  exact absurd (hlives.1 rfl) (by decide)

/-! ## With a cleared flag -/

/-- The flag is not set while the thread is new, but by the `startThread` that starts it next. -/
def Armed (l : Lifecycle ρ) : Prop :=
  (l.threads.m_stayAlive = true → l.threads.router = .new → .startThread ∈ l.threads.calls) ∧
    l.holder ≠ .startThread true

/-- A call that goes on leaves an armed thread armed. -/
private theorem armed_goto {l : Lifecycle ρ} (h : l.Armed) {i : ℕ} {c : CallPc}
    (hc : l.threads.calls[i]? = some c) (hother : .startThread ≠ c) (pc : CallPc)
    (halive : l.threads.m_stayAlive = true) (hnew : l.threads.router = .new) :
    .startThread ∈ l.threads.calls.set i pc :=
  mem_set_of_ne hc (h.1 halive hnew) hother

theorem armed_call {l : Lifecycle ρ} (hinv : l.Inv) (h : l.Armed) {i : ℕ} {c : CallPc}
    (hc : l.threads.calls[i]? = some c) {s : Router ρ} (hstep : l.threads.stepCall i c = some s) :
    Armed { l.remember c with threads := s } := by
  cases c with
  | pushed | start | stop =>
    obtain ⟨-, rfl⟩ := Router.acquire_eq_some hstep
    exact ⟨armed_goto h hc (by decide) _, by simp [remember]⟩
  | notify | stopSignal =>
    obtain rfl := Option.some.inj hstep
    refine ⟨?_, h.2⟩
    intro halive hnew
    simp only [Router.goto, Router.m_stayAlive_signal, Router.router_signal_eq_new,
      Router.calls_signal] at halive hnew ⊢
    exact armed_goto h hc (by decide) _ halive hnew
  | setAlive =>
    rw [Router.stepCall] at hstep
    split at hstep
    · rename_i halive
      obtain rfl := Option.some.inj hstep
      -- whoever set the flag for a new thread would still have the mutex
      have hstarted : l.threads.router ≠ .new := by
        intro hnew
        have hmem := mem_eraseIdx_of_ne hc (h.1 halive hnew) (by decide)
        have hfree := hinv.exclusive.others_free hc (.inl rfl) hmem
        cases hfree
      refine ⟨fun _ hnew => absurd hnew hstarted, ?_⟩
      simp [remember, hstarted]
    · rename_i hdead
      obtain rfl := Option.some.inj hstep
      refine ⟨fun _ _ => List.mem_set (List.getElem?_eq_some_iff.mp hc).1 _, ?_⟩
      simp [remember, hdead]
  | startThread =>
    obtain rfl := Option.some.inj hstep
    refine ⟨?_, h.2⟩
    intro _ hnew
    by_cases hold : l.threads.router = .new <;> simp [hold] at hnew
  | clearAlive =>
    obtain rfl := Option.some.inj hstep
    refine ⟨?_, h.2⟩
    intro halive
    cases halive
  | unlock =>
    obtain rfl := Option.some.inj hstep
    refine ⟨fun halive hnew => mem_eraseIdx_of_ne hc (h.1 halive hnew) (by decide), ?_⟩
    have hholder := h.2
    cases hkind : l.holder with
    | startThread missed => simpa [remember, hkind] using hholder
    | receivedNGPPacket | stopThread => simp [remember, hkind]

theorem armed_step {l l' : Lifecycle ρ} {a : Action ρ} (hinv : l.Inv) (h : l.Armed)
    (hstep : l.step a = some l') : l'.Armed := by
  obtain ⟨s, hs, rfl⟩ := step_eq_some hstep
  cases a with
  | receivedNGPPacket packet | startThread | stopThread =>
    obtain rfl := Option.some.inj hs
    exact ⟨fun halive hnew => List.mem_append_left _ (h.1 halive hnew), h.2⟩
  | router => exact ⟨fun _ hnew => absurd hnew (Router.routerStep_of_stepRouter hs).notNew, h.2⟩
  | wakeup =>
    obtain ⟨-, rfl⟩ := Router.step_wakeup hs
    refine ⟨?_, h.2⟩
    intro _ hnew
    cases hnew
  | call i =>
    obtain ⟨c, hc, hs⟩ := Router.step_call hs
    rw [rememberAction_call hc]
    exact armed_call hinv h hc hs

/-- What holds in every state of a run from a cleared flag. -/
def Cleared (l : Lifecycle ρ) : Prop := l.Kept ∧ l.Armed

theorem cleared_step (l : Lifecycle ρ) (a : Action ρ) (l' : Lifecycle ρ) (h : l.Cleared)
    (_ : True) (hstep : l.step a = some l') : l'.Cleared := by
  have hok : l.ReturnsStarted a := fun _ _ _ => h.2.2
  exact ⟨kept_step l a l' h.1 hok hstep, armed_step h.1.1 h.2 hstep⟩

/-- **Had the constructor cleared the flag**, every run would keep to the lifecycle. -/
theorem lives_of_cleared {as : List (Action ρ)} {l : Lifecycle ρ}
    (hrun : run step (init false) as = some l) : l.Lives := by
  have hinit : (init false : Lifecycle ρ).Cleared := by
    refine ⟨kept_init false, ?_, by simp [init]⟩
    intro halive
    cases halive
  have hcleared := run_invariant cleared_step hinit (AllSteps.of_forall (fun _ _ => trivial) _) hrun
  exact hcleared.1.1.lives hcleared.1.2

end Lifecycle

end CppCore.MessageRouter
