import CppCore.Lib.Run

/-!
# The concurrent queue

`ConcurrentQueue` is a queue behind a mutex, with a condition variable for the threads that wait
for a value.  `push` releases the mutex before the broadcast, so other calls can fall in between.

A system is a program counter for each of any number of threads.  Taking and releasing the mutex
are steps of their own, and so are entering the wait, which releases it, the broadcast, a wakeup
without one, the end of a wait by its timeout or by an exception and every access to the queue.

## Main definitions

* `Pc`, `ConcurrentQueue` — where the threads are, and what they share.
* `step` — one step of one thread.
* `LostWakeup` — a thread is parked although there is a value and nobody about to broadcast.
* `Inv` — the invariant; `Inv.of_goto` says what a step of one thread has to show for it.
* `fifo_of_run` — values come out as they went in, whoever takes one finds one, and no wakeup is
  lost.
-/

namespace CppCore.Utils

open Lib

/-! ## The threads -/

/-- Where a thread is. -/
inductive Pc (τ : Type)
  /-- Between two calls. -/
  | idle
  /-- `push`: the lock. -/
  | pushLock (data : τ)
  /-- `push`: `m_queue.push(data)`, with the mutex. -/
  | pushData (data : τ)
  /-- `push`: `lock.unlock()`, with the mutex. -/
  | pushUnlock
  /-- `push`: `pal_thread_conditional_broadcast(m_condVar)`. -/
  | broadcast
  /-- `empty`: the lock. -/
  | emptyLock
  /-- `empty`: `m_queue.empty()`, with the mutex. -/
  | emptyCheck
  /-- `tryPop`: the lock. -/
  | tryLock
  /-- `tryPop`: `if(m_queue.empty())`, with the mutex. -/
  | tryCheck
  /-- `waitAndPop`: the lock. -/
  | waitLock (timeout : UInt32)
  /-- `waitAndPop`: `while(m_queue.empty())`, with the mutex. -/
  | waitCheck (timeout : UInt32)
  /-- `waitAndPop`: the call of `pal_thread_conditional_wait`, with the mutex. -/
  | wait (timeout : UInt32)
  /-- In the wait, without the mutex. -/
  | parked (timeout : UInt32)
  /-- Notified, or awake without a reason, to take the mutex again. -/
  | woken (timeout : UInt32)
  /-- The timeout has passed or the wait throws: to take the mutex again and leave the call. -/
  | timedOut
  /-- `poppedValue=m_queue.front()`, with the mutex. -/
  | front
  /-- `m_queue.pop()`, with the mutex. -/
  | pop (poppedValue : τ)
  /-- The end of the call, with the mutex. -/
  | unlock
  deriving DecidableEq, Repr

namespace Pc

variable {τ : Type}

/-- The thread has the mutex. -/
def Holds : Pc τ → Prop
  | pushData _ | pushUnlock | emptyCheck | tryCheck | waitCheck _ | wait _ => True
  | front | pop _ | unlock => True
  | _ => False

/-- The thread is in the wait and has not been notified. -/
def Parked : Pc τ → Prop
  | parked _ => True
  | _ => False

/-- The thread stands between its push and its broadcast. -/
def Notifying : Pc τ → Prop
  | pushUnlock | broadcast => True
  | _ => False

/-- What the thread has seen of the queue, and still has the mutex. -/
def Sees (m_queue : List τ) : Pc τ → Prop
  | wait _ => m_queue = []
  | front => m_queue ≠ []
  | pop poppedValue => ∃ rest, m_queue = poppedValue :: rest
  | _ => True

theorem sees_of_not_holds {pc : Pc τ} (h : ¬pc.Holds) (m_queue : List τ) : pc.Sees m_queue := by
  cases pc with
  | wait timeout | front | pop poppedValue => exact absurd trivial h
  | _ => trivial

/-- Where the thread is after a broadcast. -/
def notified : Pc τ → Pc τ
  | parked timeout => woken timeout
  | pc => pc

/-- After a broadcast no thread is parked; the other places stay. -/
theorem notified_iff (pc : Pc τ) :
    (pc.notified.Holds ↔ pc.Holds) ∧
      (∀ m_queue, pc.notified.Sees m_queue ↔ pc.Sees m_queue) ∧ ¬pc.notified.Parked := by
  cases pc <;> exact ⟨Iff.rfl, fun _ => Iff.rfl, id⟩

end Pc

/-- The calls of a queue; `waitAndPop( poppedValue )` waits with the timeout 0, for ever. -/
inductive Op (τ : Type)
  | push (data : τ)
  | empty
  | tryPop
  | waitAndPop (timeout : UInt32)
  deriving DecidableEq, Repr

/-- Where a call begins. -/
def Op.start {τ : Type} : Op τ → Pc τ
  | push data => .pushLock data
  | empty => .emptyLock
  | tryPop => .tryLock
  | waitAndPop timeout => .waitLock timeout

/-- What the threads share, where they are, and what went in and came out. -/
structure ConcurrentQueue (τ : Type) where
  /-- The queue. -/
  m_queue : List τ
  /-- Who has the mutex. -/
  m_mutex : Option ℕ
  /-- The threads. -/
  threads : ℕ → Pc τ
  /-- The values pushed, in this order. -/
  pushed : List τ
  /-- The values popped, in this order. -/
  popped : List τ

/-- What can happen next. -/
inductive Action (τ : Type)
  /-- A thread calls the queue. -/
  | call (i : ℕ) (op : Op τ)
  /-- A thread goes on. -/
  | go (i : ℕ)
  /-- A wait ends without a broadcast. -/
  | wakeup (i : ℕ)
  /-- The timeout of a wait passes. -/
  | timeout (i : ℕ)
  /-- A wait throws. -/
  | throw (i : ℕ)
  deriving DecidableEq, Repr

namespace ConcurrentQueue

variable {τ : Type}

/-- An empty queue, and no call in progress. -/
def init : ConcurrentQueue τ := ⟨[], none, fun _ => .idle, [], []⟩

/-- Thread `i` goes on at `pc`. -/
def goto (s : ConcurrentQueue τ) (i : ℕ) (pc : Pc τ) : ConcurrentQueue τ :=
  { s with threads := Function.update s.threads i pc }

/-- Thread `i` takes the mutex and goes on at `pc`. -/
def acquire (s : ConcurrentQueue τ) (i : ℕ) (pc : Pc τ) : Option (ConcurrentQueue τ) :=
  if s.m_mutex = none then some { s.goto i pc with m_mutex := some i } else none

/-- Thread `i` releases the mutex and goes on at `pc`. -/
def release (s : ConcurrentQueue τ) (i : ℕ) (pc : Pc τ) : ConcurrentQueue τ :=
  { s.goto i pc with m_mutex := none }

/-- `pal_thread_conditional_broadcast(m_condVar)`. -/
def notifyAll (s : ConcurrentQueue τ) : ConcurrentQueue τ :=
  { s with threads := fun j => (s.threads j).notified }

/-- A step of thread `i`, which is at the given place. -/
def stepThread (s : ConcurrentQueue τ) (i : ℕ) : Pc τ → Option (ConcurrentQueue τ)
  | .idle => none
  | .pushLock data => s.acquire i (.pushData data)
  | .pushData data =>
    some { s.goto i .pushUnlock with m_queue := s.m_queue ++ [data], pushed := s.pushed ++ [data] }
  | .pushUnlock => some (s.release i .broadcast)
  | .broadcast => some (s.notifyAll.goto i .idle)
  | .emptyLock => s.acquire i .emptyCheck
  | .emptyCheck => some (s.goto i .unlock)
  | .tryLock => s.acquire i .tryCheck
  | .tryCheck => some (s.goto i (if s.m_queue.isEmpty then .unlock else .front))
  | .waitLock timeout => s.acquire i (.waitCheck timeout)
  | .waitCheck timeout => some (s.goto i (if s.m_queue.isEmpty then .wait timeout else .front))
  | .wait timeout => some (s.release i (.parked timeout))
  | .parked _ => none
  | .woken timeout => s.acquire i (.waitCheck timeout)
  | .timedOut => s.acquire i .unlock
  | .front =>
    match s.m_queue with
    | [] => none
    | value :: _ => some (s.goto i (.pop value))
  | .pop poppedValue =>
    match s.m_queue with
    | [] => none
    | _ :: rest =>
      some { s.goto i .unlock with m_queue := rest, popped := s.popped ++ [poppedValue] }
  | .unlock => some (s.release i .idle)

/-- One step.  A wait with the timeout 0 has none; a timeout may also be noticed after a
notification.  A wait throws at once, with the mutex still taken, or when it takes it again. -/
def step (s : ConcurrentQueue τ) : Action τ → Option (ConcurrentQueue τ)
  | .call i op =>
    match s.threads i with
    | .idle => some (s.goto i op.start)
    | _ => none
  | .go i => s.stepThread i (s.threads i)
  | .wakeup i =>
    match s.threads i with
    | .parked timeout => some (s.goto i (.woken timeout))
    | _ => none
  | .timeout i =>
    match s.threads i with
    | .parked timeout | .woken timeout => if timeout = 0 then none else some (s.goto i .timedOut)
    | _ => none
  | .throw i =>
    match s.threads i with
    | .wait _ => some (s.goto i .unlock)
    | .parked _ | .woken _ => some (s.goto i .timedOut)
    | _ => none

/-- A thread is parked and not notified although there is a value and nobody about to
broadcast. -/
def LostWakeup (s : ConcurrentQueue τ) : Prop :=
  s.m_queue ≠ [] ∧ (∃ i, (s.threads i).Parked) ∧ ∀ j, ¬(s.threads j).Notifying

/-! ## The invariant -/

/-- What holds in every state of every run. -/
structure Inv (s : ConcurrentQueue τ) : Prop where
  /-- The threads that need the mutex have it. -/
  mutex : ∀ i, (s.threads i).Holds ↔ s.m_mutex = some i
  /-- What went in either came out or is still there, in this order. -/
  fifo : s.popped ++ s.m_queue = s.pushed
  /-- What a thread with the mutex has seen of the queue is so. -/
  sees : ∀ i, (s.threads i).Sees s.m_queue
  /-- Behind a parked thread there is no value, or somebody about to broadcast. -/
  parked : ∀ i, (s.threads i).Parked → s.m_queue = [] ∨ ∃ j, (s.threads j).Notifying

theorem inv_init : Inv (init : ConcurrentQueue τ) where
  mutex i := by simp [init, Pc.Holds]
  fifo := rfl
  sees i := trivial
  parked i h := h.elim

variable {s s' : ConcurrentQueue τ} {i : ℕ} {pc : Pc τ}

/-- **What a step of one thread has to show.**  The other threads still have what they had, only
the owner of the mutex has changed the queue, and its thread leaves nobody parked who should not
be. -/
theorem Inv.of_goto (hs : Inv s) (hthreads : s'.threads = Function.update s.threads i pc)
    (hheld : pc.Holds ↔ s'.m_mutex = some i)
    (hothers : ∀ j, j ≠ i → (s'.m_mutex = some j ↔ s.m_mutex = some j))
    (hfifo : s'.popped ++ s'.m_queue = s'.pushed)
    (howner : s'.m_queue = s.m_queue ∨ s.m_mutex = some i)
    (hsees : pc.Sees s'.m_queue) (hparked : pc.Parked → s'.m_queue = [])
    (hfilled : s.m_queue = [] → s'.m_queue = [] ∨ pc.Notifying)
    (hnotifying : (s.threads i).Notifying → pc.Notifying ∨ ∀ j, ¬(s.threads j).Parked) :
    Inv s' := by
  have hself : s'.threads i = pc := by rw [hthreads, Function.update_self]
  have hother : ∀ j, j ≠ i → s'.threads j = s.threads j := fun j hj => by
    rw [hthreads, Function.update_of_ne hj]
  have hsame : ∀ j, j ≠ i → (s.threads j).Holds → s'.m_queue = s.m_queue := by
    intro j hj hholds
    refine howner.resolve_right fun hi => hj ?_
    exact Option.some.inj (((hs.mutex j).mp hholds).symm.trans hi)
  refine ⟨fun j => ?_, hfifo, fun j => ?_, fun j h => ?_⟩
  · by_cases hj : j = i
    · rw [hj, hself]
      exact hheld
    · rw [hother j hj, hothers j hj]
      exact hs.mutex j
  · by_cases hj : j = i
    · rw [hj, hself]
      exact hsees
    · rw [hother j hj]
      by_cases hholds : (s.threads j).Holds
      · rw [hsame j hj hholds]
        exact hs.sees j
      · exact Pc.sees_of_not_holds hholds _
  · by_cases hj : j = i
    · rw [hj, hself] at h
      exact .inl (hparked h)
    · rw [hother j hj] at h
      rcases hs.parked j h with hnil | ⟨k, hk⟩
      · exact (hfilled hnil).imp_right fun hpc => ⟨i, by rwa [hself]⟩
      · by_cases hki : k = i
        · have hpc := (hnotifying (hki ▸ hk)).resolve_right fun hnone => hnone j h
          exact .inr ⟨i, by rwa [hself]⟩
        · exact .inr ⟨k, by rwa [hother k hki]⟩

/-- A thread goes on without touching what is shared. -/
theorem inv_goto (hs : Inv s) (hheld : pc.Holds ↔ (s.threads i).Holds)
    (hsees : pc.Sees s.m_queue) (hparked : ¬pc.Parked) (hnotifying : ¬(s.threads i).Notifying) :
    Inv (s.goto i pc) :=
  hs.of_goto rfl (hheld.trans (hs.mutex i)) (fun _ _ => Iff.rfl) hs.fifo (.inl rfl) hsees
    (fun h => absurd h hparked) .inl (fun h => absurd h hnotifying)

/-- A thread takes the mutex, to look at the queue afterwards. -/
theorem inv_acquire (hs : Inv s) (h : s.acquire i pc = some s') (hholds : pc.Holds)
    (hsees : pc.Sees s.m_queue) (hparked : ¬pc.Parked) (hnotifying : ¬(s.threads i).Notifying) :
    Inv s' := by
  rw [acquire] at h
  by_cases hfree : s.m_mutex = none
  · rw [if_pos hfree] at h
    obtain rfl := Option.some.inj h
    refine hs.of_goto rfl (iff_of_true hholds rfl) (fun j hj => ?_) hs.fifo (.inl rfl) hsees
      (fun h => absurd h hparked) .inl (fun h => absurd h hnotifying)
    rw [hfree]
    exact iff_of_false (fun h => hj (Option.some.inj h).symm) (fun h => nomatch h)
  · rw [if_neg hfree] at h
    cases h

/-- A thread releases the mutex, and may enter the wait in doing so. -/
theorem inv_release (hs : Inv s) (hholds : (s.threads i).Holds) (hfree : ¬pc.Holds)
    (hparked : pc.Parked → s.m_queue = [])
    (hnotifying : (s.threads i).Notifying → pc.Notifying) : Inv (s.release i pc) := by
  have howner := (hs.mutex i).mp hholds
  refine hs.of_goto rfl (iff_of_false hfree fun h => nomatch h) (fun j hj => ?_) hs.fifo (.inl rfl)
    (Pc.sees_of_not_holds hfree _) hparked .inl fun h => .inl (hnotifying h)
  rw [howner]
  exact iff_of_false (fun h => nomatch h) (fun h => hj (Option.some.inj h).symm)

theorem inv_notifyAll (hs : Inv s) : Inv s.notifyAll where
  mutex j := (s.threads j).notified_iff.1.trans (hs.mutex j)
  fifo := hs.fifo
  sees j := ((s.threads j).notified_iff.2.1 _).mpr (hs.sees j)
  parked j h := absurd h (s.threads j).notified_iff.2.2

/-- The broadcast: the thread is done, and nobody is parked. -/
theorem inv_broadcast (hs : Inv s) (hi : s.threads i = .broadcast) :
    Inv (s.notifyAll.goto i .idle) := by
  have hfree : s.m_mutex ≠ some i := by
    rw [ne_eq, ← hs.mutex i, hi]
    exact id
  exact (inv_notifyAll hs).of_goto rfl (iff_of_false id hfree) (fun _ _ => Iff.rfl) hs.fifo
    (.inl rfl) trivial (fun h => h.elim) .inl
    fun _ => .inr fun j => (s.threads j).notified_iff.2.2

/-- A value goes in, with the mutex: whoever is parked is about to be notified. -/
theorem inv_pushData (hs : Inv s) {data : τ} (hi : s.threads i = .pushData data) :
    Inv { s.goto i .pushUnlock with
      m_queue := s.m_queue ++ [data], pushed := s.pushed ++ [data] } := by
  have howner : s.m_mutex = some i := (hs.mutex i).mp (by rw [hi]; trivial)
  have hfifo : s.popped ++ (s.m_queue ++ [data]) = s.pushed ++ [data] := by
    rw [← List.append_assoc, hs.fifo]
  exact hs.of_goto rfl (iff_of_true trivial howner) (fun _ _ => Iff.rfl) hfifo (.inr howner)
    trivial (fun h => h.elim) (fun _ => .inr trivial) fun _ => .inl trivial

/-- The value at the front is copied, with the mutex. -/
theorem inv_front (hs : Inv s) (hi : s.threads i = .front) {value : τ} {rest : List τ}
    (hqueue : s.m_queue = value :: rest) : Inv (s.goto i (.pop value)) := by
  refine inv_goto hs (iff_of_true trivial ?_) ⟨rest, hqueue⟩ id ?_ <;> rw [hi]
  · trivial
  · exact id

/-- It comes out, with the mutex. -/
theorem inv_pop (hs : Inv s) {value : τ} (hi : s.threads i = .pop value) {first : τ}
    {rest : List τ} (hqueue : s.m_queue = first :: rest) :
    Inv { s.goto i .unlock with m_queue := rest, popped := s.popped ++ [value] } := by
  have howner : s.m_mutex = some i := (hs.mutex i).mp (by rw [hi]; trivial)
  have hseen := hs.sees i
  rw [hi] at hseen
  obtain ⟨rest', hseen⟩ := hseen
  obtain ⟨rfl, -⟩ := List.cons.inj (hseen.symm.trans hqueue)
  have hfifo : s.popped ++ [value] ++ rest = s.pushed := by
    rw [← hs.fifo, hqueue, List.append_assoc]
    rfl
  refine hs.of_goto rfl (iff_of_true trivial howner) (fun _ _ => Iff.rfl) hfifo (.inr howner)
    trivial (fun h => h.elim) (fun h => ?_) fun h => ?_
  · rw [hqueue] at h
    cases h
  · rw [hi] at h
    exact h.elim

/-- A check of the queue, with the mutex, keeps the invariant whatever it finds. -/
theorem inv_check (hs : Inv s) {missing : Pc τ} (hholds : (s.threads i).Holds)
    (hnotifying : ¬(s.threads i).Notifying) (hmissing : missing.Holds ∧ ¬missing.Parked)
    (hsees : s.m_queue = [] → missing.Sees s.m_queue) :
    Inv (s.goto i (if s.m_queue.isEmpty then missing else .front)) := by
  by_cases hempty : s.m_queue.isEmpty = true
  · rw [if_pos hempty]
    exact inv_goto hs (iff_of_true hmissing.1 hholds) (hsees (List.isEmpty_iff.mp hempty))
      hmissing.2 hnotifying
  · rw [if_neg hempty]
    exact inv_goto hs (iff_of_true trivial hholds) (mt List.isEmpty_iff.mpr hempty) id hnotifying

/-- Every step of a thread keeps the invariant. -/
theorem inv_stepThread (hs : Inv s) (hi : s.threads i = pc) (h : s.stepThread i pc = some s') :
    Inv s' := by
  have hplace : ∀ P : Pc τ → Prop, P pc → P (s.threads i) := fun P hpc => hi ▸ hpc
  cases pc with
  | idle | parked timeout => cases h
  | pushLock data =>
    exact inv_acquire hs h trivial trivial id (hplace (¬Pc.Notifying ·) id)
  | emptyLock | tryLock | timedOut =>
    exact inv_acquire hs h trivial trivial id (hplace (¬Pc.Notifying ·) id)
  | waitLock timeout | woken timeout =>
    exact inv_acquire hs h trivial trivial id (hplace (¬Pc.Notifying ·) id)
  | pushData data =>
    obtain rfl := Option.some.inj h
    exact inv_pushData hs hi
  | pushUnlock =>
    obtain rfl := Option.some.inj h
    exact inv_release hs (hplace Pc.Holds trivial) id (fun h => h.elim) fun _ => trivial
  | broadcast =>
    obtain rfl := Option.some.inj h
    exact inv_broadcast hs hi
  | emptyCheck =>
    obtain rfl := Option.some.inj h
    exact inv_goto hs (iff_of_true trivial (hplace Pc.Holds trivial)) trivial id
      (hplace (¬Pc.Notifying ·) id)
  | tryCheck =>
    obtain rfl := Option.some.inj h
    exact inv_check hs (hplace Pc.Holds trivial) (hplace (¬Pc.Notifying ·) id) ⟨trivial, id⟩
      fun _ => trivial
  | waitCheck timeout =>
    obtain rfl := Option.some.inj h
    exact inv_check hs (hplace Pc.Holds trivial) (hplace (¬Pc.Notifying ·) id) ⟨trivial, id⟩ id
  | wait timeout =>
    obtain rfl := Option.some.inj h
    have hempty : s.m_queue = [] := by
      have hseen := hs.sees i
      rwa [hi] at hseen
    exact inv_release hs (hplace Pc.Holds trivial) id (fun _ => hempty)
      (hplace (fun pc => pc.Notifying → _) False.elim)
  | front =>
    rw [stepThread] at h
    split at h
    · cases h
    · rename_i value rest hqueue
      obtain rfl := Option.some.inj h
      exact inv_front hs hi hqueue
  | pop poppedValue =>
    rw [stepThread] at h
    split at h
    · cases h
    · rename_i value rest hqueue
      obtain rfl := Option.some.inj h
      exact inv_pop hs hi hqueue
  | unlock =>
    obtain rfl := Option.some.inj h
    exact inv_release hs (hplace Pc.Holds trivial) id (fun h => h.elim)
      (hplace (fun pc => pc.Notifying → _) False.elim)

/-- A thread without the mutex goes on without it, to no wait. -/
theorem inv_goto_free (hs : Inv s) {old : Pc τ} (hi : s.threads i = old)
    (hold : ¬old.Holds ∧ ¬old.Notifying) (hpc : ¬pc.Holds ∧ ¬pc.Parked) : Inv (s.goto i pc) := by
  rw [← hi] at hold
  exact inv_goto hs (iff_of_false hpc.1 hold.1) (Pc.sees_of_not_holds hpc.1 _) hpc.2 hold.2

/-- Every step keeps the invariant. -/
theorem inv_step (hs : Inv s) {a : Action τ} (h : s.step a = some s') : Inv s' := by
  cases a with
  | call i op =>
    rw [step] at h
    split at h
    · rename_i hi
      obtain rfl := Option.some.inj h
      apply inv_goto_free hs hi ⟨id, id⟩
      cases op <;> exact ⟨id, id⟩
    · cases h
  | go i => exact inv_stepThread hs rfl h
  | wakeup i =>
    rw [step] at h
    split at h
    · rename_i timeout hi
      obtain rfl := Option.some.inj h
      exact inv_goto_free hs hi ⟨id, id⟩ ⟨id, id⟩
    · cases h
  | timeout i =>
    rw [step] at h
    split at h
    · rename_i timeout hi
      split at h
      · cases h
      · obtain rfl := Option.some.inj h
        exact inv_goto_free hs hi ⟨id, id⟩ ⟨id, id⟩
    · rename_i timeout hi
      split at h
      · cases h
      · obtain rfl := Option.some.inj h
        exact inv_goto_free hs hi ⟨id, id⟩ ⟨id, id⟩
    · cases h
  | throw i =>
    rw [step] at h
    split at h
    · rename_i timeout hi
      obtain rfl := Option.some.inj h
      refine inv_goto hs (iff_of_true trivial ?_) trivial id ?_ <;> rw [hi]
      · trivial
      · exact id
    · rename_i timeout hi
      obtain rfl := Option.some.inj h
      exact inv_goto_free hs hi ⟨id, id⟩ ⟨id, id⟩
    · rename_i timeout hi
      obtain rfl := Option.some.inj h
      exact inv_goto_free hs hi ⟨id, id⟩ ⟨id, id⟩
    · cases h

/-- **The queue is a channel that loses nothing.**  After any steps of any number of threads, the
values popped are the first of the values pushed, in the same order, a thread that is about to take
a value finds one, which it takes, and no thread is parked and not notified while there is a value,
unless somebody is about to broadcast. -/
theorem fifo_of_run {as : List (Action τ)} (hrun : run step init as = some s) :
    s.popped <+: s.pushed ∧ s.popped ++ s.m_queue = s.pushed ∧ ¬s.LostWakeup ∧
      (∀ i, s.threads i = .front → s.m_queue ≠ []) ∧
      ∀ i value, s.threads i = .pop value → ∃ rest, s.m_queue = value :: rest := by
  have hstep : ∀ (s : ConcurrentQueue τ) (a : Action τ) (s' : ConcurrentQueue τ), Inv s → True →
      step s a = some s' → Inv s' := fun _ _ _ hs _ h => inv_step hs h
  have hs : Inv s := run_invariant hstep inv_init (AllSteps.of_forall (fun _ _ => trivial) _) hrun
  have hsees : ∀ i pc, s.threads i = pc → pc.Sees s.m_queue := by
    rintro i _ rfl
    exact hs.sees i
  refine ⟨⟨s.m_queue, hs.fifo⟩, hs.fifo, fun hlost => ?_, fun i => hsees i .front,
    fun i value => hsees i (.pop value)⟩
  obtain ⟨hne, ⟨i, hparked⟩, hnobody⟩ := hlost
  rcases hs.parked i hparked with hnil | ⟨j, hj⟩
  · exact hne hnil
  · exact hnobody j hj

/-- One thread waits, another one pushes a value, and a third one pops it before the broadcast. -/
theorem fifo_of_run_overtaken :
    ∃ s : ConcurrentQueue ℕ, run step init
        [.call 0 (.waitAndPop 0), .go 0, .go 0, .go 0, .call 1 (.push 5), .go 1, .go 1, .go 1,
          .call 2 .tryPop, .go 2, .go 2, .go 2, .go 2] = some s ∧
      s.popped = [5] ∧ s.popped <+: s.pushed ∧ ¬s.LostWakeup := by
  obtain ⟨s, hs⟩ := Option.isSome_iff_exists.mp (show (run step (init : ConcurrentQueue ℕ)
    [.call 0 (.waitAndPop 0), .go 0, .go 0, .go 0, .call 1 (.push 5), .go 1, .go 1, .go 1,
      .call 2 .tryPop, .go 2, .go 2, .go 2, .go 2]).isSome = true by decide)
  have hpopped : (run step (init : ConcurrentQueue ℕ)
      [.call 0 (.waitAndPop 0), .go 0, .go 0, .go 0, .call 1 (.push 5), .go 1, .go 1, .go 1,
        .call 2 .tryPop, .go 2, .go 2, .go 2, .go 2]).map popped = some [5] := by decide
  rw [hs] at hpopped
  obtain ⟨hfirst, -, hlost, -⟩ := fifo_of_run hs
  exact ⟨s, hs, Option.some.inj hpopped, hfirst, hlost⟩

end ConcurrentQueue

end CppCore.Utils
