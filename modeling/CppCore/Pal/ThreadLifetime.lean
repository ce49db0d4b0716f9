import CppCore.Lib.Run
import CppCore.Lib.Guarded
import Mathlib.Data.Multiset.AddSub
import Mathlib.Data.Fintype.Basic
import Mathlib.Tactic.ByContra

/-!
# The life of a thread object

A `JTCThread` is shared by handles, which count the references to it in `m_refcount` behind a mutex
inside of the object; whoever drops the last one deletes the object.  The object has a reference to
itself as well, and its thread group has another.  The thread that it stands for drops both at its
end, after it has woken the threads that join it; if it was never started, `destroy` drops them.

A system is a place for each of any number of threads.  Taking and releasing `m_mutex` and
`m_ref_mutex`, every access to a field, entering a wait, being woken and waking without a reason are
steps of their own.

## Main definitions

* `Pc`, `JTCThread` — where the threads are, and the object.
* `step` — one step of one thread.
* `Allowed` — what the clients see to.
* `Inv` — the invariant, `Inv.step` — every step keeps it.
* `deleted_of_run` — the object is deleted once, and used by nobody afterwards.
* `join_of_run` — a thread that has joined another one finds it finished, and is not left waiting.
-/

namespace CppCore.Pal

open Lib Function

namespace ThreadLifetime

/-! ## The threads -/

/-- A reference to the object. -/
inductive Ref (ι : Type)
  /-- A `JTCHandleT` of a thread. -/
  | handle (i : ι)
  /-- The one in `m_threads` of the thread group. -/
  | group
  /-- The temporary handle that `exit_hook` calls `JTCThreadGroup::remove` with. -/
  | temporary
  /-- The one that the object has to itself. -/
  | self
  deriving DecidableEq, Repr

/-- Where a reference is dropped: in `~JTCHandleT` or `operator=`, in `JTCThreadGroup::remove`,
right after it, or at the end of `exit_hook`. -/
inductive Drop
  | handle
  | group
  | temporary
  | self
  deriving DecidableEq, Repr

/-- Where a thread is. -/
inductive Pc
  /-- Not created yet. -/
  | unborn
  /-- Between two calls. -/
  | idle
  /-- At the end of its function. -/
  | exited
  /-- `JTCHandleT::JTCHandleT`, of a handle or of the temporary one: the lock of `m_ref_mutex`. -/
  | copyLock (temporary : Bool)
  /-- `++m_refcount`, with `m_ref_mutex`. -/
  | copyCount (temporary : Bool)
  /-- The unlock of `m_ref_mutex`. -/
  | copyUnlock (temporary : Bool)
  /-- The lock of `m_ref_mutex`. -/
  | dropLock (d : Drop)
  /-- `if (--m_refcount == 0)`, with `m_ref_mutex`. -/
  | dropCount (d : Drop)
  /-- The unlock of `m_ref_mutex`. -/
  | dropUnlock (d : Drop) (delete_it : Bool)
  /-- `delete m_object`. -/
  | dropDelete (d : Drop)
  /-- `start`: the lock of `m_mutex`. -/
  | startLock
  /-- `if (m_state != new_thread)`, with `m_mutex`. -/
  | startCheck
  /-- `pthread_create`, with `m_mutex`. -/
  | startCreate
  /-- `m_state = runnable`, with `m_mutex`. -/
  | startState
  /-- The unlock of `m_mutex`. -/
  | startUnlock
  /-- `entrance_hook`: the lock of `m_mutex` in `setPriority`. -/
  | entryLock
  /-- The unlock of `m_mutex`. -/
  | entryUnlock
  /-- `join`: the lock of `m_mutex`. -/
  | joinLock
  /-- `while (m_state == runnable || m_state == not_runnable)`, with `m_mutex`. -/
  | joinCheck
  /-- The call of `m_join_cond.wait(m_mutex)`, with `m_mutex`. -/
  | joinWait
  /-- In the wait, until it is notified and has `m_mutex` again. -/
  | joinParked
  /-- The unlock of `m_mutex`. -/
  | joinUnlock
  /-- `destroy`: the lock of `m_mutex`. -/
  | destroyLock
  /-- `if (m_state == dead) … if (m_state != new_thread) …`, with `m_mutex`. -/
  | destroyCheck
  /-- The unlock of `m_mutex`, in front of `exit_hook` or of the end. -/
  | destroyUnlock (exits : Bool)
  /-- `exit_hook`: the lock of `m_mutex`. -/
  | exitLock
  /-- The broadcast, if the thread is running, with `m_mutex`. -/
  | exitCheck
  /-- `m_state = dead`, with `m_mutex`. -/
  | exitState
  /-- The unlock of `m_mutex`. -/
  | exitUnlock
  deriving DecidableEq, Repr

/-- The states of a thread. -/
inductive ThreadState
  | new_thread
  | runnable
  | not_runnable
  | dead
  deriving DecidableEq, Repr

/-- The condition of `join`. -/
def ThreadState.Runs (m_state : ThreadState) : Prop := m_state = .runnable ∨ m_state = .not_runnable

instance (m_state : ThreadState) : Decidable m_state.Runs :=
  inferInstanceAs (Decidable (m_state = .runnable ∨ m_state = .not_runnable))

/-- The calls, and the end of `entrance_hook`. -/
inductive Op
  | copy
  | drop
  | start
  | join
  | destroy
  | exit
  deriving DecidableEq, Repr

/-- Where a call begins. -/
def Op.start' : Op → Pc
  | copy => .copyLock false
  | drop => .dropLock .handle
  | start => .startLock
  | join => .joinLock
  | destroy => .destroyLock
  | exit => .exitLock

/-- What can happen next. -/
inductive Action (ι : Type)
  /-- A thread calls the object. -/
  | call (i : ι) (op : Op)
  /-- A thread gives a handle to another one. -/
  | give (i j : ι)
  /-- A thread goes on. -/
  | go (i : ι)
  /-- `pthread_create` fails, and `start` throws. -/
  | createFails (i : ι)
  /-- A wait ends without a reason. -/
  | wakeup (i : ι)
  deriving DecidableEq, Repr

namespace Pc

/-! ### What the threads need

Every place has a row in these tables. -/

/-- The thread has `m_mutex`. -/
def holds : Pc → Bool
  | startCheck | startCreate | startState | startUnlock | entryUnlock | joinCheck => true
  | joinWait | joinUnlock | destroyCheck | destroyUnlock _ | exitCheck | exitState => true
  | exitUnlock => true
  | _ => false

/-- The thread has `m_ref_mutex`. -/
def holdsRef : Pc → Bool
  | copyCount _ | copyUnlock _ | dropCount _ | dropUnlock _ _ => true
  | _ => false

/-- The thread is inside of a call that a handle keeps the object for. -/
def uses : Pc → Bool
  | copyLock false | copyCount false | startLock | startCheck | startCreate | startState => true
  | startUnlock | joinLock | joinCheck | joinWait | joinParked | joinUnlock => true
  | destroyLock | destroyCheck | destroyUnlock false | entryLock | entryUnlock => true
  | _ => false

/-- The references that have to be there. -/
def needs : Pc → List Drop
  | copyUnlock false | dropLock .handle | dropCount .handle => [.handle]
  | destroyUnlock true | exitLock | exitCheck | exitState | exitUnlock => [.group, .self]
  | copyLock true | copyCount true => [.group, .self]
  | copyUnlock true | dropLock .group | dropCount .group => [.group, .temporary, .self]
  | dropUnlock .group _ | dropDelete .group => [.temporary, .self]
  | dropLock .temporary | dropCount .temporary => [.temporary, .self]
  | dropUnlock .temporary _ | dropDelete .temporary | dropLock .self | dropCount .self => [.self]
  | _ => []

/-- The references that the thread that the object stands for keeps. -/
def keeps : Pc → List Drop
  | exited | dropUnlock .self _ | dropDelete .self => []
  | dropUnlock .group _ | dropDelete .group | dropLock .temporary | dropCount .temporary => [.self]
  | dropUnlock .temporary _ | dropDelete .temporary | dropLock .self | dropCount .self => [.self]
  | _ => [.group, .self]

/-- The references that have been dropped. -/
def lacks : Pc → List Drop
  | dropUnlock .group _ | dropDelete .group | dropLock .temporary | dropCount .temporary => [.group]
  | dropUnlock .temporary _ | dropDelete .temporary | dropLock .self | dropCount .self => [.group]
  | exited | dropUnlock .self _ | dropDelete .self => [.group, .self]
  | _ => []

/-- The thread is in `exit_hook`, or about to be. -/
def exits : Pc → Bool
  | destroyUnlock true | exitLock | exitCheck | exitState | exitUnlock => true
  | copyLock temporary | copyCount temporary | copyUnlock temporary => temporary
  | dropLock d | dropCount d | dropUnlock d _ | dropDelete d => d ≠ .handle
  | _ => false

/-- The thread has set `m_state` to `dead`, if it is the one that the object stands for. -/
def ended : Pc → Bool
  | exitUnlock | exited => true
  | copyLock temporary | copyCount temporary | copyUnlock temporary => temporary
  | dropLock d | dropCount d | dropUnlock d _ | dropDelete d => d ≠ .handle
  | _ => false

/-- The thread is in `start`, and may find that the thread is a new one. -/
def starts : Pc → Bool
  | startLock | startCheck | startCreate | startState => true
  | _ => false

/-- The thread is in `destroy`, and may find that the thread is a new one. -/
def destroys : Pc → Bool
  | destroyLock | destroyCheck => true
  | _ => false

/-- The thread is about to delete the object. -/
def deletes : Pc → Bool
  | dropUnlock _ delete_it => delete_it
  | dropDelete _ => true
  | _ => false

/-- The thread is in no call. -/
def away : Pc → Bool
  | unborn | idle | exited => true
  | _ => false

variable {ι : Type}

/-- What the thread has seen of `m_state` and `m_join_cond`. -/
def Knows : Pc → ThreadState × Finset ι → Prop
  | startCreate, (m_state, _) | startState, (m_state, _) => m_state = .new_thread
  | joinWait, (m_state, _) => m_state.Runs
  | joinUnlock, (m_state, _) => ¬m_state.Runs
  | exitState, (m_state, m_join_cond) => m_state.Runs ∧ m_join_cond = ∅
  | _, _ => True

/-- What the thread has seen of `m_refcount`. -/
def KnowsRef : Pc → ℤ → Prop
  | dropUnlock _ delete_it, m_refcount => delete_it = true ↔ m_refcount = 0
  | _, _ => True

theorem knows_of_not_holds (pc : Pc) (d : ThreadState × Finset ι) (h : ¬pc.holds) : pc.Knows d := by
  cases pc <;> trivial

theorem knowsRef_of_not_holdsRef (pc : Pc) (n : ℤ) (h : ¬pc.holdsRef) : pc.KnowsRef n := by
  cases pc <;> trivial

theorem not_holdsRef_of_holds {pc : Pc} (h : pc.holds) : ¬pc.holdsRef := by
  cases pc <;> first | exact Bool.false_ne_true | cases h

theorem self_mem_keeps {pc : Pc} (h : pc.uses) : .self ∈ pc.keeps := by
  cases pc <;> first | exact absurd h Bool.false_ne_true | simp [keeps]

theorem of_mem_lacks {pc : Pc} {d : Drop} (h : d ∈ pc.lacks) : d ≠ .handle ∧ d ≠ .temporary := by
  cases pc with
  | dropLock d' | dropCount d' | dropDelete d' => cases d' <;> cases d <;> simp_all [lacks]
  | dropUnlock d' delete_it => cases d' <;> cases d <;> simp_all [lacks]
  | _ => cases d <;> simp_all [lacks]

theorem handle_not_mem_keeps (pc : Pc) : .handle ∉ pc.keeps := by
  cases pc with
  | dropLock d | dropCount d | dropDelete d => cases d <;> decide
  | dropUnlock d delete_it => cases d <;> simp [keeps]
  | _ => simp [keeps]

theorem exits_of_mem_needs {pc : Pc} {d : Drop} (h : d ∈ pc.needs) (hd : d ≠ .handle) :
    pc.exits := by
  cases pc with
  | dropLock d' | dropCount d' | dropDelete d' => cases d' <;> simp_all [needs, exits]
  | dropUnlock d' delete_it => cases d' <;> simp_all [needs, exits]
  | copyLock temporary | copyCount temporary | copyUnlock temporary =>
    cases temporary <;> simp_all [needs, exits]
  | destroyUnlock exits => cases exits <;> simp_all [needs, Pc.exits]
  | _ => simp_all [needs, exits]

/-- From one place to the next, a thread needs nothing new, and leaves `exit_hook` only at its
end. -/
structure Follows (old pc : Pc) : Prop where
  uses : pc.uses → old.uses
  needs : pc.needs ⊆ old.needs
  lacks : pc.lacks ⊆ old.lacks
  exits : pc.exits → old.exits
  done : old.exits → pc.exits ∨ [.group, .self] ⊆ old.lacks

instance (old pc : Pc) : Decidable (old.Follows pc) :=
  decidable_of_iff ((pc.uses → old.uses) ∧ pc.needs ⊆ old.needs ∧ pc.lacks ⊆ old.lacks ∧
    (pc.exits → old.exits) ∧ (old.exits → pc.exits ∨ [.group, .self] ⊆ old.lacks))
    ⟨fun h => ⟨h.1, h.2.1, h.2.2.1, h.2.2.2.1, h.2.2.2.2⟩,
      fun h => ⟨h.uses, h.needs, h.lacks, h.exits, h.done⟩⟩

/-- From one place to the next, a thread does nothing that concerns the state of the object. -/
structure Stays (old pc : Pc) : Prop where
  unborn : old ≠ .unborn ∧ pc ≠ .unborn
  startState : old ≠ .startState ∧ pc ≠ .startState
  starts : pc.starts → old.starts
  destroys : pc.destroys → old.destroys

instance (old pc : Pc) : Decidable (old.Stays pc) :=
  decidable_of_iff ((old ≠ .unborn ∧ pc ≠ .unborn) ∧ (old ≠ .startState ∧ pc ≠ .startState) ∧
    (pc.starts → old.starts) ∧ (pc.destroys → old.destroys))
    ⟨fun h => ⟨h.1, h.2.1, h.2.2.1, h.2.2.2⟩,
      fun h => ⟨h.unborn, h.startState, h.starts, h.destroys⟩⟩

end Pc

end ThreadLifetime

open ThreadLifetime

/-- A thread object, and the threads that use it. -/
structure JTCThread (ι : Type) where
  m_state : ThreadState
  m_refcount : ℤ
  /-- Who has `m_mutex`. -/
  m_mutex : Option ι
  /-- Who has `m_ref_mutex`. -/
  m_ref_mutex : Option ι
  /-- Who is blocked in `m_join_cond`. -/
  m_join_cond : Finset ι
  /-- The object is there no more. -/
  deleted : Bool
  /-- Somebody has used the object when it was there no more. -/
  fault : Bool
  /-- The references. -/
  refs : Multiset (Ref ι)
  /-- Who has called `destroy` before the thread was started. -/
  destroyed : Option ι
  /-- The threads. -/
  threads : ι → Pc

namespace JTCThread

variable {ι : Type} [DecidableEq ι] (child : ι)

/-- An object that thread `i` has constructed, and has a handle of. -/
def init (i : ι) : JTCThread ι where
  m_state := .new_thread
  m_refcount := 3
  m_mutex := none
  m_ref_mutex := none
  m_join_cond := ∅
  deleted := false
  fault := false
  refs := {.handle i, .group, .self}
  destroyed := none
  threads j := if j = child then .unborn else .idle

section Step

/-- Thread `i` goes on at `pc`. -/
def goto (s : JTCThread ι) (i : ι) (pc : Pc) : JTCThread ι :=
  { s with threads := update s.threads i pc }

/-- Thread `i` takes `m_mutex` and goes on at `pc`. -/
def acquire (s : JTCThread ι) (i : ι) (pc : Pc) : Option (JTCThread ι) :=
  if s.m_mutex = none then some { s.goto i pc with m_mutex := some i } else none

/-- Thread `i` releases `m_mutex` and goes on at `pc`. -/
def release (s : JTCThread ι) (i : ι) (pc : Pc) : JTCThread ι :=
  { s.goto i pc with m_mutex := none }

/-- Thread `i` takes `m_ref_mutex` and goes on at `pc`. -/
def acquireRef (s : JTCThread ι) (i : ι) (pc : Pc) : Option (JTCThread ι) :=
  if s.m_ref_mutex = none then some { s.goto i pc with m_ref_mutex := some i } else none

/-- Thread `i` releases `m_ref_mutex` and goes on at `pc`. -/
def releaseRef (s : JTCThread ι) (i : ι) (pc : Pc) : JTCThread ι :=
  { s.goto i pc with m_ref_mutex := none }

/-- The reference that thread `i` makes. -/
def copied (i : ι) (temporary : Bool) : Ref ι := if temporary then .temporary else .handle i

/-- The reference that thread `i` drops. -/
def dropped (i : ι) : Drop → Ref ι
  | .handle => .handle i
  | .group => .group
  | .temporary => .temporary
  | .self => .self

/-- Where thread `i` goes on when it has dropped a reference. -/
def next (i : ι) : Drop → Pc
  | .handle => .idle
  | .group => .dropLock .temporary
  | .temporary => .dropLock .self
  | .self => if i = child then .exited else .idle

/-- A step of thread `i`, which is at the given place. -/
def stepThread (s : JTCThread ι) (i : ι) : Pc → Option (JTCThread ι)
  | .unborn | .idle | .exited => none
  | .copyLock temporary => s.acquireRef i (.copyCount temporary)
  | .copyCount temporary =>
    some { s.goto i (.copyUnlock temporary) with
      m_refcount := s.m_refcount + 1, refs := copied i temporary ::ₘ s.refs }
  | .copyUnlock temporary =>
    some (s.releaseRef i (if temporary then .dropLock .group else .idle))
  | .dropLock d => s.acquireRef i (.dropCount d)
  | .dropCount d =>
    some { s.goto i (.dropUnlock d (s.m_refcount - 1 = 0)) with
      m_refcount := s.m_refcount - 1, refs := s.refs.erase (dropped i d) }
  | .dropUnlock d delete_it =>
    some (s.releaseRef i (if delete_it then .dropDelete d else next child i d))
  | .dropDelete d => some { s.goto i (next child i d) with deleted := true }
  | .startLock => s.acquire i .startCheck
  | .startCheck =>
    some (s.goto i (if s.m_state ≠ .new_thread then .startUnlock else .startCreate))
  | .startCreate =>
    some { s with threads := update (update s.threads i .startState) child .entryLock }
  | .startState => some { s.goto i .startUnlock with m_state := .runnable }
  | .startUnlock => some (s.release i .idle)
  | .entryLock => s.acquire i .entryUnlock
  | .entryUnlock => some (s.release i .idle)
  | .joinLock => s.acquire i .joinCheck
  | .joinCheck => some (s.goto i (if s.m_state.Runs then .joinWait else .joinUnlock))
  | .joinWait => some { s.release i .joinParked with m_join_cond := insert i s.m_join_cond }
  | .joinParked => if i ∈ s.m_join_cond then none else s.acquire i .joinCheck
  | .joinUnlock => some (s.release i .idle)
  | .destroyLock => s.acquire i .destroyCheck
  | .destroyCheck =>
    if s.m_state = .new_thread then
      some { s.goto i (.destroyUnlock true) with destroyed := some i }
    else
      some (s.goto i (.destroyUnlock false))
  | .destroyUnlock exits => some (s.release i (if exits then .exitLock else .idle))
  | .exitLock => s.acquire i .exitCheck
  | .exitCheck =>
    if s.m_state.Runs then some { s.goto i .exitState with m_join_cond := ∅ }
    else some (s.goto i .exitUnlock)
  | .exitState => some { s.goto i .exitUnlock with m_state := .dead }
  | .exitUnlock => some (s.release i (.copyLock true))

/-- One step.  Whoever is inside of a call uses the object. -/
def step (s : JTCThread ι) : Action ι → Option (JTCThread ι)
  | .call i op => if s.threads i = .idle then some (s.goto i op.start') else none
  | .give i j => some { s with refs := .handle j ::ₘ s.refs.erase (.handle i) }
  | .go i =>
    (s.stepThread child i (s.threads i)).map fun s' => { s' with fault := s.fault || s.deleted }
  | .createFails i =>
    if s.threads i = .startCreate then
      some { s.goto i .startUnlock with fault := s.fault || s.deleted }
    else none
  | .wakeup i =>
    if i ∈ s.m_join_cond then some { s with m_join_cond := s.m_join_cond.erase i } else none

end Step

/-! ## The invariant -/

/-- What thread `i` relies on, at a place. -/
structure Here (refs : Multiset (Ref ι)) (destroyed : Option ι) (i : ι) (pc : Pc) : Prop where
  uses : pc.uses → .handle i ∈ refs ∨ i = child
  needs : ∀ d ∈ pc.needs, dropped i d ∈ refs
  keeps : i = child → destroyed = none → ∀ d ∈ pc.keeps, dropped i d ∈ refs
  lacks : ∀ d ∈ pc.lacks, dropped i d ∉ refs
  exits : pc.exits → destroyed = none ∧ i = child ∨ destroyed = some i

/-- The object is deleted once, by whoever has dropped the last reference. -/
structure Deletion (m_refcount : ℤ) (deleted : Bool) (threads : ι → Pc) : Prop where
  deletes : ∀ i, (threads i).deletes →
    m_refcount = 0 ∧ deleted = false ∧ ∀ j, (threads j).deletes → i = j
  gone : deleted = true → m_refcount = 0 ∧ ∀ i, ¬(threads i).deletes
  kept : m_refcount = 0 → deleted = true ∨ ∃ i, (threads i).deletes

/-- The references, and who counts and drops them. -/
structure Counted (s : JTCThread ι) : Prop where
  /-- The threads that need `m_ref_mutex` have it, and what they have seen is still so. -/
  ref : Guarded (·.holdsRef) Pc.KnowsRef s.m_ref_mutex s.threads s.m_refcount
  /-- `m_refcount` is the number of references. -/
  count : s.m_refcount = s.refs.card
  once : s.refs.count .self ≤ 1 ∧ s.refs.count .group ≤ 1
  here : ∀ i, Here child s.refs s.destroyed i (s.threads i)
  destroyer : ∀ i, s.destroyed = some i →
    (s.threads i).exits ∨ .group ∉ s.refs ∧ .self ∉ s.refs
  deletion : Deletion s.m_refcount s.deleted s.threads

/-- The state of the object, and who changes and awaits it. -/
structure Lifecycle (s : JTCThread ι) : Prop where
  /-- The threads that need `m_mutex` have it, and what they have seen is still so. -/
  mutex : Guarded (·.holds) Pc.Knows s.m_mutex s.threads (s.m_state, s.m_join_cond)
  parked : ∀ i ∈ s.m_join_cond, s.threads i = .joinParked
  /-- Whoever waits, waits for a thread that runs. -/
  joinable : s.m_join_cond.Nonempty → s.m_state = .runnable
  unborn : s.threads child = .unborn → s.m_state = .new_thread
  /-- The thread is created before the state says so. -/
  created : s.threads child ≠ .unborn → s.m_state = .new_thread → ∃ i, s.threads i = .startState
  creator : ∀ i, s.threads i = .startState → s.threads child ≠ .unborn
  ended : s.m_state = .dead ↔ (s.threads child).ended
  running : s.m_state ≠ .not_runnable
  destroyed : s.destroyed ≠ none → s.m_state = .new_thread ∧ s.threads child = .unborn
  /-- Nobody starts a new thread while it is destroyed. -/
  starts : s.m_state = .new_thread → ∀ i, (s.threads i).starts →
    s.destroyed = none ∧ ∀ j, ¬(s.threads j).destroys
  /-- A new thread is destroyed once. -/
  destroys : s.m_state = .new_thread → ∀ i, (s.threads i).destroys →
    s.destroyed = none ∧ ∀ j, (s.threads j).destroys → i = j

/-- What holds in every state of every run. -/
structure Inv (s : JTCThread ι) : Prop where
  counted : Counted child s
  lifecycle : Lifecycle child s
  fault : s.fault = false

variable {child} {s s' : JTCThread ι} {i : ι} {old pc : Pc}

/-- Threads that do not move are where they were. -/
theorem threads_goto (s : JTCThread ι) (i : ι) (pc : Pc) (j : ι) :
    (s.goto i pc).threads j = s.threads j ∧ j ≠ i ∨ j = i ∧ (s.goto i pc).threads j = pc := by
  by_cases hj : j = i
  · exact .inr ⟨hj, by rw [hj]; exact update_self ..⟩
  · exact .inl ⟨update_of_ne hj _ _, hj⟩

/-! ### The references -/

omit [DecidableEq ι] in
/-- What a thread relies on at one place, it may at the next. -/
theorem Here.follow {refs : Multiset (Ref ι)} {destroyed : Option ι}
    (h : Here child refs destroyed i old) (hf : old.Follows pc)
    (hkeeps : i = child → pc.keeps ⊆ old.keeps) : Here child refs destroyed i pc where
  uses hpc := h.uses (hf.uses hpc)
  needs d hd := h.needs d (hf.needs hd)
  keeps hi hnone d hd := h.keeps hi hnone d (hkeeps hi hd)
  lacks d hd := h.lacks d (hf.lacks hd)
  exits hpc := h.exits (hf.exits hpc)

/-- A thread moves that does not delete the object, or is about to before and after. -/
theorem Deletion.goto (hs : Deletion s.m_refcount s.deleted s.threads) (hold : s.threads i = old)
    (hdeletes : pc.deletes = old.deletes) :
    Deletion s.m_refcount s.deleted (s.goto i pc).threads := by
  have hsame : ∀ j, ((s.goto i pc).threads j).deletes = (s.threads j).deletes := by
    intro j
    rcases threads_goto s i pc j with ⟨h, -⟩ | ⟨rfl, h⟩
    · rw [h]
    · rw [h, hold, hdeletes]
  refine ⟨?_, ?_, ?_⟩
  · intro j hj
    obtain ⟨hzero, hdeleted, honce⟩ := hs.deletes j ((hsame j).symm.trans hj)
    exact ⟨hzero, hdeleted, fun k hk => honce k ((hsame k).symm.trans hk)⟩
  · intro h
    exact ⟨(hs.gone h).1, fun j hj => (hs.gone h).2 j ((hsame j).symm.trans hj)⟩
  · intro h
    refine (hs.kept h).imp_right fun hdel => ?_
    obtain ⟨j, hj⟩ := hdel
    exact ⟨j, (hsame j).trans hj⟩

omit [DecidableEq ι] in
/-- While there are references, nobody has deleted the object, or is about to. -/
theorem Deletion.alive {m_refcount : ℤ} {deleted : Bool} {threads : ι → Pc}
    (h : Deletion m_refcount deleted threads) (hne : m_refcount ≠ 0) :
    deleted = false ∧ ∀ j, ¬(threads j).deletes := by
  refine ⟨?_, fun j hj => hne (h.deletes j hj).1⟩
  by_contra hdeleted
  exact hne (h.gone (by simpa using hdeleted)).1

/-- A thread moves that has nothing to do with `m_ref_mutex`. -/
theorem Counted.ref_goto (hs : Counted child s) (hold : s.threads i = old)
    (hholdsRef : ¬old.holdsRef ∧ ¬pc.holdsRef) :
    Guarded (·.holdsRef) Pc.KnowsRef s.m_ref_mutex (s.goto i pc).threads s.m_refcount := by
  refine hs.ref.goto Pc.knowsRef_of_not_holdsRef ?_ (.inl rfl)
    (Pc.knowsRef_of_not_holdsRef _ _ hholdsRef.2)
  rw [hold]
  exact iff_of_false hholdsRef.2 hholdsRef.1

/-- **A thread moves**, and the references stay what they are. -/
theorem Counted.move (hs : Counted child s) (hold : s.threads i = old)
    (hhere : Here child s.refs s.destroyed i pc)
    (hdone : old.exits → pc.exits ∨ [.group, .self] ⊆ old.lacks)
    (hdeletes : pc.deletes = old.deletes) {m_ref_mutex : Option ι}
    (href : Guarded (·.holdsRef) Pc.KnowsRef m_ref_mutex (s.goto i pc).threads s.m_refcount) :
    Counted child { s.goto i pc with m_ref_mutex } := by
  have hpc := threads_goto s i pc
  refine ⟨href, hs.count, hs.once, ?_, ?_, hs.deletion.goto hold hdeletes⟩
  · intro j
    change Here child s.refs s.destroyed j ((s.goto i pc).threads j)
    rcases hpc j with ⟨h, -⟩ | ⟨rfl, h⟩
    · rw [h]
      exact hs.here j
    · rwa [h]
  · intro j hj
    change ((s.goto i pc).threads j).exits ∨ _
    rcases hs.destroyer j hj with hexits | hlacks
    · rcases hpc j with ⟨h, -⟩ | ⟨rfl, h⟩
      · exact .inl (h ▸ hexits)
      · rw [hold] at hexits
        rcases hdone hexits with hexits | hsub
        · exact .inl (by rw [h]; exact hexits)
        · have hlacks := (hs.here j).lacks
          rw [hold] at hlacks
          exact .inr ⟨hlacks .group (hsub (by simp)), hlacks .self (hsub (by simp))⟩
    · exact .inr hlacks

omit [DecidableEq ι] in
/-- The references change, but not the ones that a thread relies on. -/
theorem Here.change {refs refs' : Multiset (Ref ι)} {destroyed : Option ι}
    (h : Here child refs destroyed i pc) (huses : pc.uses → .handle i ∈ refs → .handle i ∈ refs')
    (hneeds : ∀ d ∈ pc.needs, dropped i d ∈ refs → dropped i d ∈ refs')
    (hkeeps : i = child → destroyed = none → ∀ d ∈ pc.keeps, dropped i d ∈ refs →
      dropped i d ∈ refs')
    (hlacks : ∀ d, d ≠ .handle ∧ d ≠ .temporary → dropped i d ∈ refs' → dropped i d ∈ refs) :
    Here child refs' destroyed i pc where
  uses hpc := (h.uses hpc).imp_left (huses hpc)
  needs d hd := hneeds d hd (h.needs d hd)
  keeps hi hnone d hd := hkeeps hi hnone d hd (h.keeps hi hnone d hd)
  lacks d hd hmem := h.lacks d hd (hlacks d (Pc.of_mem_lacks hd) hmem)
  exits := h.exits

/-- Whoever relies on the object has a reference to it. -/
theorem Counted.refcount_ne_zero (hs : Counted child s)
    (hborn : s.destroyed ≠ none → s.threads child = .unborn)
    (hi : (s.threads i).uses ∨ (s.threads i).needs ≠ []) : s.m_refcount ≠ 0 := by
  intro hzero
  have hrefs : s.refs = 0 := by
    rw [hs.count] at hzero
    exact Multiset.card_eq_zero.mp (by exact_mod_cast hzero)
  have hhere := hs.here i
  rw [hrefs] at hhere
  rcases hi with hi | hi
  · rcases hhere.uses hi with h | rfl
    · exact Multiset.notMem_zero _ h
    · have hnone : s.destroyed = none := by
        by_contra hne
        rw [hborn hne] at hi
        cases hi
      exact Multiset.notMem_zero _ (hhere.keeps rfl hnone _ (Pc.self_mem_keeps hi))
  · obtain ⟨d, hd⟩ := List.exists_mem_of_ne_nil _ hi
    exact Multiset.notMem_zero _ (hhere.needs d hd)

omit [DecidableEq ι] in
/-- The thread that makes a reference relies on it. -/
theorem Here.copyUnlock {refs : Multiset (Ref ι)} {destroyed : Option ι} {temporary : Bool}
    (h : Here child refs destroyed i (.copyCount temporary)) :
    Here child (copied i temporary ::ₘ refs) destroyed i (.copyUnlock temporary) := by
  refine ⟨fun h => (by cases temporary <;> cases h), fun d hd => ?_,
    fun hi hnone d hd => Multiset.mem_cons_of_mem (h.keeps hi hnone d hd),
    fun d hd => (by cases hd), fun hpc => h.exits hpc⟩
  have hneeds : d ∈ (Pc.copyCount temporary).needs ∨ dropped i d = copied i temporary := by
    cases temporary <;> cases d <;> simp_all [Pc.needs, dropped, copied]
  rcases hneeds with hd | hd
  · exact Multiset.mem_cons_of_mem (h.needs d hd)
  · rw [hd]
    exact Multiset.mem_cons_self _ _

/-- `++m_refcount`. -/
theorem Counted.copyCount (hs : Counted child s) {temporary : Bool}
    (hold : s.threads i = .copyCount temporary)
    (hborn : s.destroyed ≠ none → s.threads child = .unborn) :
    Counted child { s.goto i (.copyUnlock temporary) with
      m_refcount := s.m_refcount + 1, refs := copied i temporary ::ₘ s.refs } := by
  have hpc := threads_goto s i (.copyUnlock temporary)
  have hhere := hs.here i
  rw [hold] at hhere
  have hne : s.m_refcount ≠ 0 := hs.refcount_ne_zero hborn (i := i) (by
    rw [hold]
    cases temporary <;> decide)
  obtain ⟨hdeleted, hnot⟩ := hs.deletion.alive hne
  have hmoved : Deletion s.m_refcount s.deleted (s.goto i (.copyUnlock temporary)).threads :=
    hs.deletion.goto hold rfl
  have hnone := (hmoved.alive hne).2
  have hcopied : copied i temporary ≠ .self ∧ copied i temporary ≠ .group := by
    cases temporary <;> simp [copied]
  refine ⟨hs.ref.goto Pc.knowsRef_of_not_holdsRef (by rw [hold]; exact Iff.rfl)
    (.inr (by rw [hold]; rfl)) trivial, ?count, ?once, ?here, ?destroyer,
    fun j hj => absurd hj (hnone j), fun h => absurd (hdeleted.symm.trans h) Bool.false_ne_true,
    fun hzero => ?kept⟩
  case count =>
    rw [Multiset.card_cons, hs.count]
    push_cast
    rfl
  case once =>
    rw [Multiset.count_cons_of_ne hcopied.1.symm, Multiset.count_cons_of_ne hcopied.2.symm]
    exact hs.once
  case here =>
    intro j
    change Here child (copied i temporary ::ₘ s.refs) s.destroyed j
      ((s.goto i (.copyUnlock temporary)).threads j)
    have hchange : ∀ pc, Here child s.refs s.destroyed j pc →
        Here child (copied i temporary ::ₘ s.refs) s.destroyed j pc := by
      intro pc h
      refine h.change (fun _ => Multiset.mem_cons_of_mem) (fun _ _ => Multiset.mem_cons_of_mem)
        (fun _ _ _ _ => Multiset.mem_cons_of_mem) fun d hd hmem => ?_
      refine (Multiset.mem_cons.mp hmem).resolve_left ?_
      cases d with
      | handle => exact absurd rfl hd.1
      | temporary => exact absurd rfl hd.2
      | group => exact hcopied.2.symm
      | self => exact hcopied.1.symm
    rcases hpc j with ⟨h, -⟩ | ⟨rfl, h⟩
    · rw [h]
      exact hchange _ (hs.here j)
    · rw [h]
      exact hhere.copyUnlock
  case destroyer =>
    intro j hj
    change ((s.goto i (.copyUnlock temporary)).threads j).exits ∨ _
    refine (hs.destroyer j hj).imp (fun hexits => ?_) fun hlacks =>
      ⟨fun h => hlacks.1 ((Multiset.mem_cons.mp h).resolve_left hcopied.2.symm),
        fun h => hlacks.2 ((Multiset.mem_cons.mp h).resolve_left hcopied.1.symm)⟩
    rcases hpc j with ⟨h, -⟩ | ⟨rfl, h⟩
    · rwa [h]
    · rw [hold] at hexits
      rw [h]
      exact hexits
  case kept =>
    have hcount := hs.count
    change s.m_refcount + 1 = 0 at hzero
    omega

omit [DecidableEq ι] in
theorem dropped_injective (i : ι) : Injective (dropped i) := by
  intro d d' h
  cases d <;> cases d' <;> first | rfl | cases h

omit [DecidableEq ι] in
/-- Two threads drop the same reference if it is nobody's handle. -/
theorem eq_of_dropped_eq {j : ι} {d d' : Drop} (h : dropped i d = dropped j d') (hne : i ≠ j) :
    d = d' ∧ d ≠ .handle := by
  cases d <;> cases d' <;> simp_all [dropped]

/-- At most one thread is in `exit_hook`. -/
theorem Counted.eq_of_exits (hs : Counted child s) {j : ι} (hi : (s.threads i).exits)
    (hj : (s.threads j).exits) : i = j := by
  rcases (hs.here i).exits hi with ⟨hnone, hi⟩ | hi
  · rcases (hs.here j).exits hj with ⟨-, hj⟩ | hj
    · rw [hi, hj]
    · cases hnone.symm.trans hj
  · rcases (hs.here j).exits hj with ⟨hnone, -⟩ | hj
    · cases hnone.symm.trans hi
    · exact Option.some.inj (hi.symm.trans hj)

/-- A reference that a thread drops is none that another thread relies on. -/
theorem Counted.here_erase (hs : Counted child s) {d : Drop}
    (hi : d ≠ .handle → (s.threads i).exits) {j : ι} (hji : j ≠ i) :
    Here child (s.refs.erase (dropped i d)) s.destroyed j (s.threads j) := by
  have hother : ∀ d', dropped j d' ∈ s.refs → (d' ≠ .handle → d' = d → (s.threads j).exits ∨
      j = child ∧ s.destroyed = none) → dropped j d' ∈ s.refs.erase (dropped i d) := by
    intro d' hmem hexits
    refine (Multiset.mem_erase_of_ne fun heq => ?_).mpr hmem
    obtain ⟨rfl, hhandle⟩ := eq_of_dropped_eq heq hji
    rcases hexits hhandle rfl with hj | ⟨hj, hnone⟩
    · exact hji (hs.eq_of_exits hj (hi hhandle))
    · rcases (hs.here i).exits (hi hhandle) with ⟨-, hi⟩ | hi
      · exact hji (hj.trans hi.symm)
      · cases hnone.symm.trans hi
  exact (hs.here j).change (fun _ hj => hother .handle hj fun hd => absurd rfl hd)
    (fun d' hd' hj => hother d' hj fun hne _ => .inl (Pc.exits_of_mem_needs hd' hne))
    (fun hj hnone d' _ hmem => hother d' hmem fun _ _ => .inr ⟨hj, hnone⟩)
    fun _ _ => Multiset.mem_of_mem_erase

/-- The thread that drops it relies on the others. -/
theorem Here.dropUnlock {refs : Multiset (Ref ι)} {destroyed : Option ι} {d : Drop}
    (h : Here child refs destroyed i (.dropCount d))
    (honce : refs.count .self ≤ 1 ∧ refs.count .group ≤ 1) (delete_it : Bool) :
    Here child (refs.erase (dropped i d)) destroyed i (.dropUnlock d delete_it) := by
  have hkept : ∀ d' ≠ d, dropped i d' ∈ refs → dropped i d' ∈ refs.erase (dropped i d) :=
    fun d' hd' => (Multiset.mem_erase_of_ne fun heq => hd' (dropped_injective i heq)).mpr
  have htable : (∀ d' ∈ (Pc.dropUnlock d delete_it).needs, d' ≠ d ∧ d' ∈ (Pc.dropCount d).needs) ∧
      (∀ d' ∈ (Pc.dropUnlock d delete_it).keeps, d' ≠ d ∧ d' ∈ (Pc.dropCount d).keeps) ∧
      ∀ d' ∈ (Pc.dropUnlock d delete_it).lacks, d' = d ∨ d' ∈ (Pc.dropCount d).lacks := by
    cases d <;> cases delete_it <;> decide
  obtain ⟨hneeds, hkeeps, hlacks⟩ := htable
  refine ⟨fun h => absurd h Bool.false_ne_true, ?needs, ?keeps, ?lacks, fun hpc => h.exits hpc⟩
  case needs =>
    intro d' hd'
    exact hkept d' (hneeds d' hd').1 (h.needs d' (hneeds d' hd').2)
  case keeps =>
    intro hi hnone d' hd'
    exact hkept d' (hkeeps d' hd').1 (h.keeps hi hnone d' (hkeeps d' hd').2)
  case lacks =>
    intro d' hd'
    by_cases hdd : d' = d
    · subst hdd
      rw [← Multiset.count_eq_zero, Multiset.count_erase_self]
      cases d' with
      | handle => exact absurd rfl (Pc.of_mem_lacks hd').1
      | temporary => exact absurd rfl (Pc.of_mem_lacks hd').2
      | group => exact Nat.sub_eq_zero_of_le honce.2
      | self => exact Nat.sub_eq_zero_of_le honce.1
    · intro hmem
      exact h.lacks d' ((hlacks d' hd').resolve_left hdd) (Multiset.mem_of_mem_erase hmem)

/-- `if (--m_refcount == 0)`. -/
theorem Counted.dropCount (hs : Counted child s) {d : Drop} (hold : s.threads i = .dropCount d)
    (hborn : s.destroyed ≠ none → s.threads child = .unborn) :
    Counted child { s.goto i (.dropUnlock d (s.m_refcount - 1 = 0)) with
      m_refcount := s.m_refcount - 1, refs := s.refs.erase (dropped i d) } := by
  have hpc := threads_goto s i (.dropUnlock d (s.m_refcount - 1 = 0))
  have hneeds : d ∈ (Pc.dropCount d).needs := by cases d <;> decide
  have hhere := hs.here i
  rw [hold] at hhere
  have hmem := hhere.needs d hneeds
  have hne : s.m_refcount ≠ 0 := hs.refcount_ne_zero hborn (i := i) (by
    rw [hold]
    exact .inr (List.ne_nil_of_mem hneeds))
  obtain ⟨hdeleted, hnot⟩ := hs.deletion.alive hne
  have honly : ∀ j, ((s.goto i (.dropUnlock d (s.m_refcount - 1 = 0))).threads j).deletes →
      j = i ∧ s.m_refcount - 1 = 0 := by
    intro j hj
    rcases hpc j with ⟨h, -⟩ | ⟨rfl, h⟩
    · rw [h] at hj
      exact absurd hj (hnot j)
    · rw [h] at hj
      exact ⟨rfl, of_decide_eq_true hj⟩
  have hself : (s.goto i (.dropUnlock d (s.m_refcount - 1 = 0))).threads i =
      .dropUnlock d (s.m_refcount - 1 = 0) := update_self ..
  refine ⟨hs.ref.goto Pc.knowsRef_of_not_holdsRef (by rw [hold]; exact Iff.rfl)
    (.inr (by rw [hold]; rfl)) decide_eq_true_iff, ?count, ?once, ?here, ?destroyer, ?deletes,
    fun h => absurd (hdeleted.symm.trans h) Bool.false_ne_true,
    fun hzero => .inr ⟨i, by rw [hself]; exact decide_eq_true hzero⟩⟩
  case count =>
    have hcount := hs.count
    have hcard := Multiset.card_erase_add_one hmem
    change s.m_refcount - 1 = ((s.refs.erase (dropped i d)).card : ℤ)
    omega
  case once =>
    exact ⟨(Multiset.count_le_of_le _ (Multiset.erase_le _ _)).trans hs.once.1,
      (Multiset.count_le_of_le _ (Multiset.erase_le _ _)).trans hs.once.2⟩
  case here =>
    intro j
    change Here child (s.refs.erase (dropped i d)) s.destroyed j
      ((s.goto i (.dropUnlock d (s.m_refcount - 1 = 0))).threads j)
    rcases hpc j with ⟨h, hji⟩ | ⟨rfl, h⟩
    · rw [h]
      refine hs.here_erase (fun hd => ?_) hji
      rw [hold]
      exact Pc.exits_of_mem_needs hneeds hd
    · rw [h]
      exact hhere.dropUnlock hs.once _
  case destroyer =>
    intro j hj
    change ((s.goto i (.dropUnlock d (s.m_refcount - 1 = 0))).threads j).exits ∨ _
    refine (hs.destroyer j hj).imp (fun hexits => ?_) fun hlacks =>
      ⟨fun h => hlacks.1 (Multiset.mem_of_mem_erase h),
        fun h => hlacks.2 (Multiset.mem_of_mem_erase h)⟩
    rcases hpc j with ⟨h, -⟩ | ⟨rfl, h⟩
    · rwa [h]
    · rw [h]
      rw [hold] at hexits
      exact hexits
  case deletes =>
    intro j hj
    obtain ⟨rfl, hzero⟩ := honly j hj
    exact ⟨hzero, hdeleted, fun k hk => (honly k hk).1.symm⟩

/-- What a thread relies on when it has dropped a reference, it may rely on afterwards. -/
theorem next_spec (child i : ι) (d : Drop) : (Pc.dropDelete d).Follows (next child i d) ∧
    (Pc.dropDelete d).Stays (next child i d) ∧
    (i = child → (next child i d).keeps ⊆ (Pc.dropDelete d).keeps ∧
      (next child i d).ended = (Pc.dropDelete d).ended) ∧
    ¬(next child i d).holds ∧ ¬(next child i d).holdsRef ∧ ¬(next child i d).deletes := by
  cases d with
  | handle =>
    rw [show next child i .handle = .idle from rfl]
    exact ⟨by decide, by decide, fun _ => by decide, by decide, by decide, by decide⟩
  | group =>
    rw [show next child i .group = .dropLock .temporary from rfl]
    exact ⟨by decide, by decide, fun _ => by decide, by decide, by decide, by decide⟩
  | temporary =>
    rw [show next child i .temporary = .dropLock .self from rfl]
    exact ⟨by decide, by decide, fun _ => by decide, by decide, by decide, by decide⟩
  | self =>
    rw [next]
    split
    · exact ⟨by decide, by decide, fun _ => by decide, by decide, by decide, by decide⟩
    · rename_i hne
      exact ⟨by decide, by decide, fun h => absurd h hne, by decide, by decide, by decide⟩

/-- `delete m_object`. -/
theorem Counted.dropDelete (hs : Counted child s) {d : Drop} (hold : s.threads i = .dropDelete d) :
    Counted child { s.goto i (next child i d) with deleted := true } := by
  have hpc := threads_goto s i (next child i d)
  have hhere := hs.here i
  rw [hold] at hhere
  obtain ⟨hzero, -, honce⟩ := hs.deletion.deletes i (by rw [hold]; rfl)
  have hrefs : s.refs = 0 := by
    rw [hs.count] at hzero
    exact Multiset.card_eq_zero.mp (by exact_mod_cast hzero)
  obtain ⟨hfollows, -, hchild, -, hholdsRef, hdeletes⟩ := next_spec child i d
  have hhere' : Here child s.refs s.destroyed i (next child i d) :=
    hhere.follow hfollows fun h => (hchild h).1
  have hnone : ∀ j, ¬((s.goto i (next child i d)).threads j).deletes := by
    intro j hj
    rcases hpc j with ⟨h, hji⟩ | ⟨rfl, h⟩
    · rw [h] at hj
      exact hji (honce j hj).symm
    · rw [h] at hj
      exact hdeletes hj
  refine ⟨hs.ref_goto hold ⟨Bool.false_ne_true, hholdsRef⟩, hs.count, hs.once, ?here, ?destroyer,
    fun j hj => absurd hj (hnone j), fun _ => ⟨hzero, hnone⟩, fun _ => .inl rfl⟩
  case here =>
    intro j
    change Here child s.refs s.destroyed j ((s.goto i (next child i d)).threads j)
    rcases hpc j with ⟨h, -⟩ | ⟨rfl, h⟩
    · rw [h]
      exact hs.here j
    · rwa [h]
  case destroyer =>
    intro j _
    right
    change _ ∉ s.refs ∧ _ ∉ s.refs
    rw [hrefs]
    exact ⟨Multiset.notMem_zero _, Multiset.notMem_zero _⟩

/-- A handle is given to another thread. -/
theorem Counted.give (hs : Counted child s) (hi : s.threads i = .idle) (hmem : .handle i ∈ s.refs)
    (j : ι) : Counted child { s with refs := .handle j ::ₘ s.refs.erase (.handle i) } := by
  have hother : ∀ r, r ≠ .handle i → (r ∈ s.refs → r ∈ .handle j ::ₘ s.refs.erase (.handle i)) :=
    fun r hr h => Multiset.mem_cons_of_mem ((Multiset.mem_erase_of_ne hr).mpr h)
  have hback : ∀ r, (∀ k, r ≠ .handle k) → r ∈ .handle j ::ₘ s.refs.erase (.handle i) →
      r ∈ s.refs := fun r hr h =>
    Multiset.mem_of_mem_erase ((Multiset.mem_cons.mp h).resolve_left (hr j))
  refine ⟨hs.ref, ?count, ?once, ?here, ?destroyer, hs.deletion⟩
  case count =>
    have hcard := Multiset.card_erase_add_one hmem
    have hcount := hs.count
    change s.m_refcount = ((.handle j ::ₘ s.refs.erase (.handle i)).card : ℤ)
    rw [Multiset.card_cons, hcard, hcount]
  case once =>
    change Multiset.count _ (_ ::ₘ _) ≤ 1 ∧ Multiset.count _ (_ ::ₘ _) ≤ 1
    rw [Multiset.count_cons_of_ne (by simp), Multiset.count_cons_of_ne (by simp),
      Multiset.count_erase_of_ne (by simp), Multiset.count_erase_of_ne (by simp)]
    exact hs.once
  case here =>
    intro k
    have hne : ∀ d, (s.threads k).uses ∨ d ∈ (s.threads k).needs → dropped k d ≠ .handle i := by
      rintro d hd heq
      cases d with
      | handle =>
        obtain rfl : k = i := by simpa [dropped] using heq
        rw [hi] at hd
        rcases hd with hd | hd <;> cases hd
      | group | temporary | self => cases heq
    refine (hs.here k).change (fun huses => hother _ (hne .handle (.inl huses)))
      (fun d hd => hother _ (hne d (.inr hd))) (fun _ _ d hd => hother _ ?_) fun d hd => hback _ ?_
    · cases d with
      | handle => exact absurd hd (Pc.handle_not_mem_keeps _)
      | group | temporary | self => simp [dropped]
    · cases d with
      | handle => exact absurd rfl hd.1
      | group | temporary | self => simp [dropped]
  case destroyer =>
    intro k hk
    exact (hs.destroyer k hk).imp_right fun hlacks =>
      ⟨fun h => hlacks.1 (hback _ (by simp) h), fun h => hlacks.2 (hback _ (by simp) h)⟩

/-- `destroy` finds that the thread is a new one. -/
theorem Counted.destroyCheck (hs : Counted child s) (hold : s.threads i = .destroyCheck)
    (hnone : s.destroyed = none) (hchild : s.threads child = .unborn) :
    Counted child { s.goto i (.destroyUnlock true) with destroyed := some i } := by
  have hpc := threads_goto s i (.destroyUnlock true)
  have hne : i ≠ child := by
    rintro rfl
    cases hold.symm.trans hchild
  have hkeeps := (hs.here child).keeps rfl hnone
  rw [hchild] at hkeeps
  refine ⟨hs.ref_goto hold (by decide), hs.count, hs.once, ?here, ?destroyer,
    hs.deletion.goto hold rfl⟩
  case here =>
    intro j
    change Here child s.refs (some i) j ((s.goto i (.destroyUnlock true)).threads j)
    rcases hpc j with ⟨h, -⟩ | ⟨rfl, h⟩
    · rw [h]
      refine ⟨(hs.here j).uses, (hs.here j).needs, fun _ h' => (by cases h'), (hs.here j).lacks, ?_⟩
      intro hexits
      rcases (hs.here j).exits hexits with ⟨-, rfl⟩ | hsome
      · rw [hchild] at hexits
        cases hexits
      · cases hnone.symm.trans hsome
    · rw [h]
      refine ⟨fun h' => absurd h' Bool.false_ne_true, fun d hd => ?_, fun h' => absurd h' hne,
        fun d hd => (by cases hd), fun _ => .inr rfl⟩
      have hmem := hkeeps d hd
      cases d with
      | handle | temporary => simp [Pc.needs] at hd
      | group | self => exact hmem
  case destroyer =>
    intro j hj
    obtain rfl := Option.some.inj hj
    rcases hpc i with ⟨-, hne⟩ | ⟨-, h⟩
    · exact absurd rfl hne
    · exact .inl (congrArg Pc.exits h)

/-- The state of the object does not matter to the references. -/
theorem Counted.of_state (hs : Counted child s) {m_state : ThreadState} {m_mutex : Option ι}
    {m_join_cond : Finset ι} {fault : Bool} :
    Counted child { s with m_state, m_mutex, m_join_cond, fault } :=
  ⟨hs.ref, hs.count, hs.once, hs.here, hs.destroyer, hs.deletion⟩

/-! ### The state -/

theorem not_starts_of_destroys {pc : Pc} (h : pc.destroys) : ¬pc.starts := by
  cases pc <;> first | exact Bool.false_ne_true | cases h

/-- **A thread moves**, and the state of the object stays what it is. -/
theorem Lifecycle.move (hs : Lifecycle child s) (hold : s.threads i = old)
    (hunborn : old ≠ .unborn ∧ pc ≠ .unborn) (hstate : old ≠ .startState ∧ pc ≠ .startState)
    (hended : i = child → pc.ended = old.ended)
    (hstarts : pc.starts → s.m_state = .new_thread →
      s.destroyed = none ∧ ∀ j, ¬(s.threads j).destroys)
    (hdestroys : pc.destroys → s.m_state = .new_thread →
      s.destroyed = none ∧ ∀ j, ¬(s.threads j).starts ∧ ((s.threads j).destroys → i = j))
    {m_mutex : Option ι} {m_join_cond : Finset ι}
    (hparked : ∀ j ∈ m_join_cond, (s.goto i pc).threads j = .joinParked)
    (hjoinable : m_join_cond.Nonempty → s.m_state = .runnable)
    (hmutex : Guarded (·.holds) Pc.Knows m_mutex (s.goto i pc).threads (s.m_state, m_join_cond)) :
    Lifecycle child { s.goto i pc with m_mutex, m_join_cond } := by
  have hpc := threads_goto s i pc
  have hunborn' : (s.goto i pc).threads child = .unborn ↔ s.threads child = .unborn := by
    rcases hpc child with ⟨h, -⟩ | ⟨rfl, h⟩
    · rw [h]
    · rw [h, hold]
      exact iff_of_false hunborn.2 hunborn.1
  have hstate' : ∀ j, (s.goto i pc).threads j = .startState ↔ s.threads j = .startState := by
    intro j
    rcases hpc j with ⟨h, -⟩ | ⟨rfl, h⟩
    · rw [h]
    · rw [h, hold]
      exact iff_of_false hstate.2 hstate.1
  refine ⟨hmutex, hparked, hjoinable, fun h => hs.unborn (hunborn'.mp h), ?created,
    fun j hj h => hs.creator j ((hstate' j).mp hj) (hunborn'.mp h), ?ended, hs.running,
    fun h => ⟨(hs.destroyed h).1, hunborn'.mpr (hs.destroyed h).2⟩, ?starts, ?destroys⟩
  case created =>
    intro h hnew
    obtain ⟨j, hj⟩ := hs.created (fun h' => h (hunborn'.mpr h')) hnew
    exact ⟨j, (hstate' j).mpr hj⟩
  case ended =>
    refine hs.ended.trans ?_
    change _ ↔ ((s.goto i pc).threads child).ended
    rcases hpc child with ⟨h, -⟩ | ⟨rfl, h⟩
    · rw [h]
    · rw [h, hold, hended rfl]
  case starts =>
    intro hnew j hj
    change ((s.goto i pc).threads j).starts at hj
    rcases hpc j with ⟨h, hji⟩ | ⟨rfl, h⟩
    · rw [h] at hj
      obtain ⟨hnone, hnot⟩ := hs.starts hnew j hj
      refine ⟨hnone, fun k hk => ?_⟩
      change ((s.goto i pc).threads k).destroys at hk
      rcases hpc k with ⟨h', -⟩ | ⟨rfl, h'⟩
      · exact hnot k (h' ▸ hk)
      · exact ((hdestroys (h' ▸ hk) hnew).2 j).1 hj
    · rw [h] at hj
      obtain ⟨hnone, hnot⟩ := hstarts hj hnew
      refine ⟨hnone, fun k hk => ?_⟩
      change ((s.goto j pc).threads k).destroys at hk
      rcases hpc k with ⟨h', -⟩ | ⟨rfl, h'⟩
      · exact hnot k (h' ▸ hk)
      · exact not_starts_of_destroys (h' ▸ hk) hj
  case destroys =>
    intro hnew j hj
    change ((s.goto i pc).threads j).destroys at hj
    rcases hpc j with ⟨h, hji⟩ | ⟨rfl, h⟩
    · rw [h] at hj
      obtain ⟨hnone, honce⟩ := hs.destroys hnew j hj
      refine ⟨hnone, fun k hk => ?_⟩
      change ((s.goto i pc).threads k).destroys at hk
      rcases hpc k with ⟨h', -⟩ | ⟨rfl, h'⟩
      · exact honce k (h' ▸ hk)
      · exact (((hdestroys (h' ▸ hk) hnew).2 j).2 hj).symm
    · rw [h] at hj
      obtain ⟨hnone, honce⟩ := hdestroys hj hnew
      refine ⟨hnone, fun k hk => ?_⟩
      change ((s.goto j pc).threads k).destroys at hk
      rcases hpc k with ⟨h', -⟩ | ⟨rfl, h'⟩
      · exact (honce k).2 (h' ▸ hk)
      · rfl

/-- A thread moves that has nothing to do with `m_mutex`. -/
theorem Lifecycle.mutex_goto (hs : Lifecycle child s) (hold : s.threads i = old)
    (hholds : ¬old.holds ∧ ¬pc.holds) :
    Guarded (·.holds) Pc.Knows s.m_mutex (s.goto i pc).threads (s.m_state, s.m_join_cond) := by
  refine hs.mutex.goto Pc.knows_of_not_holds ?_ (.inl rfl) (Pc.knows_of_not_holds _ _ hholds.2)
  rw [hold]
  exact iff_of_false hholds.2 hholds.1

/-- **A thread goes on** without anything new. -/
theorem Lifecycle.follow (hs : Lifecycle child s) (hold : s.threads i = old) (hstays : old.Stays pc)
    (hended : i = child → pc.ended = old.ended) {m_mutex : Option ι} {m_join_cond : Finset ι}
    (hparked : ∀ j ∈ m_join_cond, (s.goto i pc).threads j = .joinParked)
    (hjoinable : m_join_cond.Nonempty → s.m_state = .runnable)
    (hmutex : Guarded (·.holds) Pc.Knows m_mutex (s.goto i pc).threads (s.m_state, m_join_cond)) :
    Lifecycle child { s.goto i pc with m_mutex, m_join_cond } := by
  refine hs.move hold hstays.unborn hstays.startState hended ?_ ?_ hparked hjoinable hmutex
  · intro hpc hnew
    exact hs.starts hnew i (by rw [hold]; exact hstays.starts hpc)
  · intro hpc hnew
    have hi : (s.threads i).destroys := by
      rw [hold]
      exact hstays.destroys hpc
    obtain ⟨hnone, honce⟩ := hs.destroys hnew i hi
    exact ⟨hnone, fun j => ⟨fun hj => (hs.starts hnew j hj).2 i hi, honce j⟩⟩

omit [DecidableEq ι] in
/-- A thread that was not parked is not blocked. -/
theorem Lifecycle.not_mem (hs : Lifecycle child s) (hold : s.threads i = old)
    (hne : old ≠ .joinParked) : i ∉ s.m_join_cond := fun h => hne (hold ▸ hs.parked i h)

/-- A thread that is not blocked moves, and the others stay blocked. -/
theorem Lifecycle.parked_goto (hs : Lifecycle child s) (hi : i ∉ s.m_join_cond) (pc : Pc) :
    ∀ j ∈ s.m_join_cond, (s.goto i pc).threads j = .joinParked := by
  intro j hj
  have hne : j ≠ i := by
    rintro rfl
    exact hi hj
  exact (update_of_ne hne _ _).trans (hs.parked j hj)

/-- A thread goes on that has nothing to do with the state of the object. -/
theorem Lifecycle.outside (hs : Lifecycle child s) (hold : s.threads i = old) (hst : old.Stays pc)
    (hended : i = child → pc.ended = old.ended) (hi : old ≠ .joinParked)
    (hholds : ¬old.holds ∧ ¬pc.holds) : Lifecycle child (s.goto i pc) :=
  hs.follow hold hst hended (hs.parked_goto (hs.not_mem hold hi) pc) hs.joinable
    (hs.mutex_goto hold hholds)

omit [DecidableEq ι] in
/-- While a thread has `m_mutex`, the state of a new thread says so. -/
theorem Lifecycle.unborn_of_holds (hs : Lifecycle child s) (hi : (s.threads i).holds)
    (hne : s.threads i ≠ .startState) (hnew : s.m_state = .new_thread) :
    s.threads child = .unborn := by
  by_contra hborn
  obtain ⟨j, hj⟩ := hs.created hborn hnew
  obtain rfl := hs.mutex.eq_of_holds hi (by rw [hj]; rfl)
  exact hne hj

/-- `pthread_create`. -/
theorem Lifecycle.startCreate (hs : Lifecycle child s) (hold : s.threads i = .startCreate) :
    Lifecycle child { s with
      threads := update (update s.threads i .startState) child .entryLock } := by
  have hnew : s.m_state = .new_thread := by
    have hknows := hs.mutex.knows i
    rwa [hold] at hknows
  have hchild := hs.unborn_of_holds (i := i) (by rw [hold]; rfl) (by simp [hold]) hnew
  have hne : i ≠ child := by
    rintro rfl
    cases hold.symm.trans hchild
  obtain ⟨hnone, hnot⟩ := hs.starts hnew i (by rw [hold]; rfl)
  have hself : update (update s.threads i .startState) child .entryLock child = .entryLock :=
    update_self ..
  have hother : ∀ j ≠ child, update (update s.threads i .startState) child .entryLock j =
      (s.goto i .startState).threads j := fun j hj => update_of_ne hj _ _
  have hdestroys : ∀ j, ¬(update (update s.threads i .startState) child .entryLock j).destroys := by
    intro j
    by_cases hj : j = child
    · rw [hj, hself]
      exact Bool.false_ne_true
    · rw [hother j hj]
      rcases threads_goto s i .startState j with ⟨h, -⟩ | ⟨-, h⟩
      · rw [h]
        exact hnot j
      · rw [h]
        exact Bool.false_ne_true
  refine ⟨?mutex, ?parked, hs.joinable, fun h => (by cases hself.symm.trans h),
    fun _ _ => ⟨i, (hother i hne).trans (update_self ..)⟩,
    fun _ _ h => (by cases hself.symm.trans h), ?ended, hs.running, fun h => absurd hnone h,
    fun _ _ _ => ⟨hnone, hdestroys⟩,
    fun _ j hj => absurd hj (hdestroys j)⟩
  case mutex =>
    have hmutex : Guarded (·.holds) Pc.Knows s.m_mutex (update s.threads i .startState)
        (s.m_state, s.m_join_cond) :=
      hs.mutex.goto Pc.knows_of_not_holds (by rw [hold]; exact Iff.rfl) (.inl rfl) hnew
    refine hmutex.goto Pc.knows_of_not_holds ?_ (.inl rfl) trivial
    rw [update_of_ne hne.symm, hchild]
    exact Iff.rfl
  case parked =>
    intro j hj
    have hparked := hs.parked j hj
    have hjc : j ≠ child := by
      rintro rfl
      cases hparked.symm.trans hchild
    exact (hother j hjc).trans (hs.parked_goto (hs.not_mem hold (by decide)) _ j hj)
  case ended =>
    refine iff_of_false (fun h => ?_) fun h => ?_
    · cases hnew.symm.trans h
    · cases (congrArg Pc.ended hself).symm.trans h

/-- `m_state = runnable`. -/
theorem Lifecycle.startState (hs : Lifecycle child s) (hold : s.threads i = .startState) :
    Lifecycle child { s.goto i .startUnlock with m_state := .runnable } := by
  have hpc := threads_goto s i .startUnlock
  have hnew : s.m_state = .new_thread := by
    have hknows := hs.mutex.knows i
    rwa [hold] at hknows
  have hborn := hs.creator i hold
  have hchild : (s.goto i .startUnlock).threads child ≠ .unborn ∧
      ¬((s.goto i .startUnlock).threads child).ended := by
    rcases hpc child with ⟨h, -⟩ | ⟨rfl, h⟩
    · rw [h]
      refine ⟨hborn, fun hended => ?_⟩
      cases hnew.symm.trans (hs.ended.mpr hended)
    · rw [h]
      exact ⟨by decide, by decide⟩
  refine ⟨hs.mutex.goto Pc.knows_of_not_holds (by rw [hold]; exact Iff.rfl)
    (.inr (by rw [hold]; rfl)) trivial, hs.parked_goto (hs.not_mem hold (by decide)) _,
    fun _ => rfl, fun h => absurd h hchild.1, fun _ h => (by cases h), fun _ _ => hchild.1,
    ⟨fun h => (by cases h), fun h => absurd h hchild.2⟩, fun h => (by cases h),
    fun h => absurd (hs.destroyed h).2 hborn, fun h => (by cases h), fun h => (by cases h)⟩

/-- `m_state = dead`. -/
theorem Lifecycle.exitState (hs : Lifecycle child s) (hold : s.threads child = .exitState) :
    Lifecycle child { s.goto child .exitUnlock with m_state := .dead } := by
  have hself : (s.goto child .exitUnlock).threads child = .exitUnlock := update_self ..
  have hempty : s.m_join_cond = ∅ := by
    have hknows := hs.mutex.knows child
    rw [hold] at hknows
    exact hknows.2
  refine ⟨hs.mutex.goto Pc.knows_of_not_holds (by rw [hold]; exact Iff.rfl)
    (.inr (by rw [hold]; rfl)) trivial, hs.parked_goto (hs.not_mem hold (by decide)) _,
    fun h => ?_, fun h => (by cases hself.symm.trans h), fun _ h => (by cases h),
    fun _ _ h => (by cases hself.symm.trans h), ⟨fun _ => congrArg Pc.ended hself, fun _ => rfl⟩,
    fun h => (by cases h), fun h => (by cases hold.symm.trans (hs.destroyed h).2),
    fun h => (by cases h), fun h => (by cases h)⟩
  change s.m_join_cond.Nonempty at h
  rw [hempty] at h
  cases h.choose_spec

/-- `destroy` finds that the thread is a new one. -/
theorem Lifecycle.destroyCheck (hs : Lifecycle child s) (hold : s.threads i = .destroyCheck)
    (hnew : s.m_state = .new_thread) :
    Lifecycle child { s.goto i (.destroyUnlock true) with destroyed := some i } := by
  have hpc := threads_goto s i (.destroyUnlock true)
  have hchild := hs.unborn_of_holds (i := i) (by rw [hold]; rfl) (by simp [hold]) hnew
  have hi : (s.threads i).destroys := by
    rw [hold]
    rfl
  obtain ⟨hnone, honce⟩ := hs.destroys hnew i hi
  have hmutex : Guarded (·.holds) Pc.Knows s.m_mutex (s.goto i (.destroyUnlock true)).threads
      (s.m_state, s.m_join_cond) :=
    hs.mutex.goto Pc.knows_of_not_holds (by rw [hold]; exact Iff.rfl) (.inl rfl) trivial
  have hstays : Pc.destroyCheck.Stays (.destroyUnlock true) := by decide
  have hmove : Lifecycle child (s.goto i (.destroyUnlock true)) :=
    hs.follow hold hstays (fun _ => rfl) (hs.parked_goto (hs.not_mem hold (by decide)) _)
      hs.joinable hmutex
  have hnot : ∀ j, ¬((s.goto i (.destroyUnlock true)).threads j).starts ∧
      ¬((s.goto i (.destroyUnlock true)).threads j).destroys := by
    intro j
    rcases hpc j with ⟨h, hji⟩ | ⟨-, h⟩
    · rw [h]
      exact ⟨fun hj => (hs.starts hnew j hj).2 i hi, fun hj => hji (honce j hj).symm⟩
    · rw [h]
      exact ⟨Bool.false_ne_true, Bool.false_ne_true⟩
  refine ⟨hmove.mutex, hmove.parked, hmove.joinable, hmove.unborn, hmove.created, hmove.creator,
    hmove.ended, hmove.running, fun _ => ⟨hnew, ?_⟩, fun _ j hj => absurd hj (hnot j).1,
    fun _ j hj => absurd hj (hnot j).2⟩
  rcases hpc child with ⟨h, -⟩ | ⟨rfl, -⟩
  · exact h.trans hchild
  · cases hold.symm.trans hchild

omit [DecidableEq ι] in
/-- The references do not matter to the state of the object. -/
theorem Lifecycle.of_refs (hs : Lifecycle child s) {m_refcount : ℤ} {m_ref_mutex : Option ι}
    {deleted fault : Bool} {refs : Multiset (Ref ι)} :
    Lifecycle child { s with m_refcount, m_ref_mutex, deleted, fault, refs } :=
  ⟨hs.mutex, hs.parked, hs.joinable, hs.unborn, hs.created, hs.creator, hs.ended, hs.running,
    hs.destroyed, hs.starts, hs.destroys⟩

/-! ### A step -/

section Go

variable (hs : Inv child s) (hold : s.threads i = old) (hf : old.Follows pc) (hst : old.Stays pc)
  (hdeletes : pc.deletes = old.deletes)
  (hchild : i = child → pc.keeps ⊆ old.keeps ∧ pc.ended = old.ended)

include hs hold hf hst hdeletes hchild

/-- **A thread goes on** without anything new, and has the mutexes that it needs. -/
theorem Inv.move (hi : i ∉ s.m_join_cond) {m_mutex m_ref_mutex : Option ι}
    (hmutex : Guarded (·.holds) Pc.Knows m_mutex (s.goto i pc).threads (s.m_state, s.m_join_cond))
    (href : Guarded (·.holdsRef) Pc.KnowsRef m_ref_mutex (s.goto i pc).threads s.m_refcount) :
    Inv child { s.goto i pc with m_mutex, m_ref_mutex } := by
  have hhere : Here child s.refs s.destroyed i pc :=
    (hold ▸ hs.counted.here i).follow hf fun h => (hchild h).1
  have hcounted := hs.counted.move hold hhere hf.done hdeletes href
  have hlifecycle := hs.lifecycle.follow hold hst (fun h => (hchild h).2)
    (hs.lifecycle.parked_goto hi pc) hs.lifecycle.joinable hmutex
  exact ⟨hcounted.of_state, hlifecycle.of_refs, hs.fault⟩

/-- A thread goes on with `m_mutex`. -/
theorem Inv.goto (hholds : old.holds ∧ pc.holds) (hknows : pc.Knows (s.m_state, s.m_join_cond)) :
    Inv child (s.goto i pc) := by
  have hi : i ∉ s.m_join_cond := hs.lifecycle.not_mem hold fun h => by
    rw [h] at hholds
    exact Bool.false_ne_true hholds.1
  refine hs.move hold hf hst hdeletes hchild hi ?_ ?_
  · refine hs.lifecycle.mutex.goto Pc.knows_of_not_holds ?_ (.inl rfl) hknows
    rw [hold]
    exact iff_of_true hholds.2 hholds.1
  · exact hs.counted.ref_goto hold
      ⟨Pc.not_holdsRef_of_holds hholds.1, Pc.not_holdsRef_of_holds hholds.2⟩

/-- A thread takes `m_mutex`. -/
theorem Inv.acquire (hi : i ∉ s.m_join_cond) (holdsRef : ¬old.holdsRef) (hholds : pc.holds)
    (hknows : ∀ d : ThreadState × Finset ι, pc.Knows d) (h : s.acquire i pc = some s') :
    Inv child s' := by
  rw [JTCThread.acquire] at h
  split at h
  · rename_i hfree
    obtain rfl := Option.some.inj h
    refine hs.move hold hf hst hdeletes hchild hi ?_ ?_
    · exact (hfree ▸ hs.lifecycle.mutex).acquire hholds (hknows _)
    · exact hs.counted.ref_goto hold ⟨holdsRef, Pc.not_holdsRef_of_holds hholds⟩
  · cases h

/-- A thread releases `m_mutex`. -/
theorem Inv.release (hholds : old.holds) (hpc : ¬pc.holds ∧ ¬pc.holdsRef) :
    Inv child (s.release i pc) := by
  have hi : i ∉ s.m_join_cond := hs.lifecycle.not_mem hold fun h => by
    rw [h] at hholds
    exact Bool.false_ne_true hholds
  refine hs.move hold hf hst hdeletes hchild hi ?_ ?_
  · exact hs.lifecycle.mutex.release Pc.knows_of_not_holds (hold ▸ hholds) hpc.1
  · exact hs.counted.ref_goto hold ⟨Pc.not_holdsRef_of_holds hholds, hpc.2⟩

/-- A thread takes `m_ref_mutex`. -/
theorem Inv.acquireRef (hi : old ≠ .joinParked) (hholds : ¬old.holds ∧ ¬pc.holds)
    (hholdsRef : pc.holdsRef) (hknows : ∀ n, pc.KnowsRef n) (h : s.acquireRef i pc = some s') :
    Inv child s' := by
  rw [JTCThread.acquireRef] at h
  split at h
  · rename_i hfree
    obtain rfl := Option.some.inj h
    refine hs.move hold hf hst hdeletes hchild (hs.lifecycle.not_mem hold hi) ?_ ?_
    · exact hs.lifecycle.mutex_goto hold hholds
    · exact (hfree ▸ hs.counted.ref).acquire hholdsRef (hknows _)
  · cases h

/-- A thread releases `m_ref_mutex`. -/
theorem Inv.releaseRef (hi : old ≠ .joinParked) (hholds : ¬old.holds ∧ ¬pc.holds)
    (hholdsRef : old.holdsRef ∧ ¬pc.holdsRef) : Inv child (s.releaseRef i pc) := by
  refine hs.move hold hf hst hdeletes hchild (hs.lifecycle.not_mem hold hi) ?_ ?_
  · exact hs.lifecycle.mutex_goto hold hholds
  · exact hs.counted.ref.release Pc.knowsRef_of_not_holdsRef (hold ▸ hholdsRef.1) hholdsRef.2

end Go

/-- A new thread that is destroyed was never created. -/
theorem Inv.unborn_of_destroyed (hs : Inv child s) (h : s.destroyed ≠ none) :
    s.threads child = .unborn := (hs.lifecycle.destroyed h).2

/-- `++m_refcount`. -/
theorem Inv.copyCount (hs : Inv child s) {temporary : Bool}
    (hold : s.threads i = .copyCount temporary) :
    Inv child { s.goto i (.copyUnlock temporary) with
      m_refcount := s.m_refcount + 1, refs := copied i temporary ::ₘ s.refs } := by
  have hstays : (Pc.copyCount temporary).Stays (.copyUnlock temporary) := by
    cases temporary <;> decide
  have hlifecycle : Lifecycle child (s.goto i (.copyUnlock temporary)) :=
    hs.lifecycle.outside hold hstays (fun _ => rfl) nofun ⟨Bool.false_ne_true, Bool.false_ne_true⟩
  exact ⟨hs.counted.copyCount hold hs.unborn_of_destroyed, hlifecycle.of_refs, hs.fault⟩

/-- `if (--m_refcount == 0)`. -/
theorem Inv.dropCount (hs : Inv child s) {d : Drop} (hold : s.threads i = .dropCount d) :
    Inv child { s.goto i (.dropUnlock d (s.m_refcount - 1 = 0)) with
      m_refcount := s.m_refcount - 1, refs := s.refs.erase (dropped i d) } := by
  have hstays : ∀ delete_it, (Pc.dropCount d).Stays (.dropUnlock d delete_it) := by
    cases d <;> decide
  have hlifecycle : Lifecycle child (s.goto i (.dropUnlock d (s.m_refcount - 1 = 0))) :=
    hs.lifecycle.outside hold (hstays _) (fun _ => rfl) nofun
      ⟨Bool.false_ne_true, Bool.false_ne_true⟩
  exact ⟨hs.counted.dropCount hold hs.unborn_of_destroyed, hlifecycle.of_refs, hs.fault⟩

/-- `delete m_object`. -/
theorem Inv.dropDelete (hs : Inv child s) {d : Drop} (hold : s.threads i = .dropDelete d) :
    Inv child { s.goto i (next child i d) with deleted := true } := by
  obtain ⟨-, hstays, hchild, hholds, -, -⟩ := next_spec child i d
  have hlifecycle : Lifecycle child (s.goto i (next child i d)) :=
    hs.lifecycle.outside hold hstays (fun h => (hchild h).2) nofun ⟨Bool.false_ne_true, hholds⟩
  exact ⟨hs.counted.dropDelete hold, hlifecycle.of_refs, hs.fault⟩

/-- Where a thread goes on when it has dropped a reference and does not delete the object. -/
theorem Inv.dropUnlock (hs : Inv child s) {d : Drop} {delete_it : Bool}
    (hold : s.threads i = .dropUnlock d delete_it) :
    Inv child (s.releaseRef i (if delete_it then .dropDelete d else next child i d)) := by
  have hold' : ∀ pc, (Pc.dropDelete d).Follows pc → (Pc.dropDelete d).Stays pc →
      (Pc.dropUnlock d delete_it).Follows pc ∧ (Pc.dropUnlock d delete_it).Stays pc := by
    intro pc hf hst
    cases d <;> exact ⟨⟨hf.uses, hf.needs, hf.lacks, hf.exits, hf.done⟩,
      ⟨nofun, hst.unborn.2⟩, ⟨nofun, hst.startState.2⟩, hst.starts, hst.destroys⟩
  have hkeeps : (Pc.dropUnlock d delete_it).keeps = (Pc.dropDelete d).keeps := by cases d <;> rfl
  cases delete_it with
  | true =>
    have hsame : (Pc.dropDelete d).Follows (.dropDelete d) ∧
        (Pc.dropDelete d).Stays (.dropDelete d) := by cases d <;> decide
    obtain ⟨hf, hst⟩ := hold' _ hsame.1 hsame.2
    exact hs.releaseRef hold hf hst rfl (fun _ => ⟨hkeeps ▸ List.Subset.refl _, rfl⟩) nofun
      ⟨Bool.false_ne_true, Bool.false_ne_true⟩ ⟨rfl, Bool.false_ne_true⟩
  | false =>
    obtain ⟨hf, hst, hchild, hholds, hholdsRef, hdeletes⟩ := next_spec child i d
    obtain ⟨hf, hst⟩ := hold' _ hf hst
    exact hs.releaseRef hold hf hst (Bool.eq_false_iff.mpr hdeletes)
      (fun h => ⟨hkeeps ▸ (hchild h).1, (hchild h).2⟩) nofun ⟨Bool.false_ne_true, hholds⟩
      ⟨rfl, hholdsRef⟩

/-- `pthread_create`. -/
theorem Inv.startCreate (hs : Inv child s) (hold : s.threads i = .startCreate) :
    Inv child { s with threads := update (update s.threads i .startState) child .entryLock } := by
  have hnew : s.m_state = .new_thread := by
    have hknows := hs.lifecycle.mutex.knows i
    rwa [hold] at hknows
  have hchild := hs.lifecycle.unborn_of_holds (i := i) (by rw [hold]; rfl) (by simp [hold]) hnew
  have hne : child ≠ i := by
    rintro rfl
    cases hold.symm.trans hchild
  have hhere : Here child s.refs s.destroyed i .startState :=
    (hold ▸ hs.counted.here i).follow (by decide) fun _ => by decide
  have hcreated : Counted child (s.goto i .startState) :=
    hs.counted.move hold hhere (by decide) rfl (hs.counted.ref_goto hold (by decide))
  have hunborn : (s.goto i .startState).threads child = .unborn :=
    (update_of_ne hne _ _).trans hchild
  have hold' := hcreated.here child
  rw [hunborn] at hold'
  have hentry : Here child s.refs s.destroyed child .entryLock :=
    ⟨fun _ => .inr rfl, fun d hd => (by cases hd), hold'.keeps, fun d hd => (by cases hd),
      fun h => absurd h Bool.false_ne_true⟩
  exact ⟨hcreated.move hunborn hentry (by decide) rfl (hcreated.ref_goto hunborn (by decide)),
    hs.lifecycle.startCreate hold, hs.fault⟩

/-- A thread goes on with `m_mutex`, and changes the state of the object. -/
theorem Inv.change (hs : Inv child s) (hold : s.threads i = old) (hf : old.Follows pc)
    (hdeletes : pc.deletes = old.deletes) (hkeeps : i = child → pc.keeps ⊆ old.keeps)
    (hholdsRef : ¬old.holdsRef ∧ ¬pc.holdsRef) {m_state : ThreadState} {m_mutex : Option ι}
    {m_join_cond : Finset ι}
    (hlifecycle : Lifecycle child { s.goto i pc with m_state, m_mutex, m_join_cond }) :
    Inv child { s.goto i pc with m_state, m_mutex, m_join_cond } := by
  have hcounted : Counted child (s.goto i pc) :=
    hs.counted.move hold ((hold ▸ hs.counted.here i).follow hf hkeeps) hf.done hdeletes
      (hs.counted.ref_goto hold hholdsRef)
  exact ⟨hcounted.of_state, hlifecycle, hs.fault⟩

/-- The call of `m_join_cond.wait(m_mutex)`. -/
theorem Inv.joinWait (hs : Inv child s) (hold : s.threads i = .joinWait) :
    Inv child { s.release i .joinParked with m_join_cond := insert i s.m_join_cond } := by
  have hruns : s.m_state.Runs := by
    have hknows := hs.lifecycle.mutex.knows i
    rwa [hold] at hknows
  have hfollows : Pc.joinWait.Follows .joinParked := by decide
  have hstays : Pc.joinWait.Stays .joinParked := by decide
  refine hs.change hold hfollows rfl (fun _ => by decide) (by decide) ?_
  refine hs.lifecycle.follow hold hstays (fun _ => rfl) ?_
    (fun _ => hruns.resolve_right hs.lifecycle.running) ?_
  · intro j hj
    rcases Finset.mem_insert.mp hj with rfl | hj
    · exact update_self ..
    · exact hs.lifecycle.parked_goto (hs.lifecycle.not_mem hold (by decide)) _ j hj
  · exact hs.lifecycle.mutex.release Pc.knows_of_not_holds (by rw [hold]; rfl) Bool.false_ne_true

/-- `m_join_cond.broadcast()`. -/
theorem Inv.exitBroadcast (hs : Inv child s) (hold : s.threads i = .exitCheck)
    (hruns : s.m_state.Runs) : Inv child { s.goto i .exitState with m_join_cond := ∅ } := by
  have hfollows : Pc.exitCheck.Follows .exitState := by decide
  have hstays : Pc.exitCheck.Stays .exitState := by decide
  refine hs.change hold hfollows rfl (fun _ => by decide) (by decide) ?_
  refine hs.lifecycle.follow hold hstays (fun _ => rfl) (fun j hj => ?_) (fun h => ?_) ?_
  · exact absurd hj (Finset.notMem_empty j)
  · exact absurd h Finset.not_nonempty_empty
  · exact hs.lifecycle.mutex.goto Pc.knows_of_not_holds (by rw [hold]; exact Iff.rfl)
      (.inr (by rw [hold]; rfl)) ⟨hruns, rfl⟩

/-- A thread in `exit_hook` that finds the object running is the one it stands for. -/
theorem Inv.eq_child (hs : Inv child s) (hexits : (s.threads i).exits)
    (hruns : s.m_state.Runs) : i = child := by
  rcases (hs.counted.here i).exits hexits with ⟨-, hi⟩ | hi
  · exact hi
  · have hnew := (hs.lifecycle.destroyed (by rw [hi]; exact nofun)).1
    rw [hnew] at hruns
    rcases hruns with h | h <;> cases h

/-- The thread that the object stands for finds it running at its end. -/
theorem Inv.runs_of_exitCheck (hs : Inv child s) (hold : s.threads child = .exitCheck) :
    s.m_state.Runs := by
  have hnew : s.m_state ≠ .new_thread := by
    intro hnew
    have hunborn := hs.lifecycle.unborn_of_holds (i := child) (by rw [hold]; rfl) (by simp [hold])
      hnew
    cases hold.symm.trans hunborn
  have hdead : s.m_state ≠ .dead := by
    intro hdead
    have hended := hs.lifecycle.ended.mp hdead
    rw [hold] at hended
    cases hended
  have hrunning := hs.lifecycle.running
  generalize s.m_state = m_state at hnew hdead hrunning
  cases m_state with
  | runnable => exact .inl rfl
  | new_thread => exact absurd rfl hnew
  | not_runnable => exact absurd rfl hrunning
  | dead => exact absurd rfl hdead

/-- The decision of `exit_hook`. -/
theorem Inv.exitCheck (hs : Inv child s) (hold : s.threads i = .exitCheck)
    (h : s.stepThread child i .exitCheck = some s') : Inv child s' := by
  rw [stepThread] at h
  split at h
  · rename_i hruns
    obtain rfl := Option.some.inj h
    exact hs.exitBroadcast hold hruns
  · rename_i hruns
    obtain rfl := Option.some.inj h
    have hne : i ≠ child := by
      rintro rfl
      exact hruns (hs.runs_of_exitCheck hold)
    exact hs.goto hold (by decide) (by decide) rfl (fun h => absurd h hne) (by decide) trivial

/-- `m_state = dead`. -/
theorem Inv.exitState (hs : Inv child s) (hold : s.threads i = .exitState) :
    Inv child { s.goto i .exitUnlock with m_state := .dead } := by
  have hknows := hs.lifecycle.mutex.knows i
  rw [hold] at hknows
  have hfollows : Pc.exitState.Follows .exitUnlock := by decide
  obtain rfl := hs.eq_child (i := i) (by rw [hold]; rfl) hknows.1
  exact hs.change hold hfollows rfl (fun _ => by decide) (by decide) (hs.lifecycle.exitState hold)

/-- `m_state = runnable`. -/
theorem Inv.startState (hs : Inv child s) (hold : s.threads i = .startState) :
    Inv child { s.goto i .startUnlock with m_state := .runnable } := by
  have hfollows : Pc.startState.Follows .startUnlock := by decide
  exact hs.change hold hfollows rfl (fun _ => by decide) (by decide) (hs.lifecycle.startState hold)

/-- The decision of `start`. -/
theorem Inv.startCheck (hs : Inv child s) (hold : s.threads i = .startCheck)
    (h : s.stepThread child i .startCheck = some s') : Inv child s' := by
  rw [stepThread] at h
  split at h
  · obtain rfl := Option.some.inj h
    exact hs.goto hold (by decide) (by decide) rfl (fun _ => by decide) (by decide) trivial
  · rename_i hnew
    obtain rfl := Option.some.inj h
    exact hs.goto hold (by decide) (by decide) rfl (fun _ => by decide) (by decide)
      (not_not.mp hnew)

/-- The condition of `join`. -/
theorem Inv.joinCheck (hs : Inv child s) (hold : s.threads i = .joinCheck)
    (h : s.stepThread child i .joinCheck = some s') : Inv child s' := by
  rw [stepThread] at h
  split at h
  · rename_i hruns
    obtain rfl := Option.some.inj h
    exact hs.goto hold (by decide) (by decide) rfl (fun _ => by decide) (by decide) hruns
  · rename_i hruns
    obtain rfl := Option.some.inj h
    exact hs.goto hold (by decide) (by decide) rfl (fun _ => by decide) (by decide) hruns

/-- The decision of `destroy`. -/
theorem Inv.destroyCheck (hs : Inv child s) (hold : s.threads i = .destroyCheck)
    (h : s.stepThread child i .destroyCheck = some s') : Inv child s' := by
  rw [stepThread] at h
  split at h
  · rename_i hnew
    obtain rfl := Option.some.inj h
    have hnone := (hs.lifecycle.destroys hnew i (by rw [hold]; rfl)).1
    have hunborn := hs.lifecycle.unborn_of_holds (i := i) (by rw [hold]; rfl) (by simp [hold]) hnew
    exact ⟨hs.counted.destroyCheck hold hnone hunborn, hs.lifecycle.destroyCheck hold hnew,
      hs.fault⟩
  · obtain rfl := Option.some.inj h
    exact hs.goto hold (by decide) (by decide) rfl (fun _ => by decide) (by decide) trivial

/-- **A step of a thread keeps the invariant.** -/
theorem Inv.stepThread (hs : Inv child s) (hold : s.threads i = pc)
    (h : s.stepThread child i pc = some s') : Inv child s' := by
  have hnot : pc ≠ .joinParked → i ∉ s.m_join_cond := hs.lifecycle.not_mem hold
  cases pc with
  | unborn | idle | exited => cases h
  | copyLock temporary =>
    have hgo : (Pc.copyLock temporary).Follows (.copyCount temporary) ∧
        (Pc.copyLock temporary).Stays (.copyCount temporary) := by
      cases temporary <;> decide
    exact hs.acquireRef hold hgo.1 hgo.2 rfl (fun _ => ⟨List.Subset.refl _, rfl⟩) nofun
      ⟨Bool.false_ne_true, Bool.false_ne_true⟩ rfl (fun _ => trivial) h
  | dropLock d =>
    have hgo : (Pc.dropLock d).Follows (.dropCount d) ∧ (Pc.dropLock d).Stays (.dropCount d) := by
      cases d <;> decide
    exact hs.acquireRef hold hgo.1 hgo.2 rfl (fun _ => ⟨by cases d <;> decide, rfl⟩) nofun
      ⟨Bool.false_ne_true, Bool.false_ne_true⟩ rfl (fun _ => trivial) h
  | copyCount temporary =>
    obtain rfl := Option.some.inj h
    exact hs.copyCount hold
  | copyUnlock temporary =>
    obtain rfl := Option.some.inj h
    cases temporary <;>
      exact hs.releaseRef hold (by decide) (by decide) rfl (fun _ => by decide) (by decide)
        (by decide) (by decide)
  | dropCount d =>
    obtain rfl := Option.some.inj h
    exact hs.dropCount hold
  | dropUnlock d delete_it =>
    obtain rfl := Option.some.inj h
    exact hs.dropUnlock hold
  | dropDelete d =>
    obtain rfl := Option.some.inj h
    exact hs.dropDelete hold
  | startLock | joinLock | entryLock | destroyLock | exitLock =>
    exact hs.acquire hold (by decide) (by decide) (by rfl) (fun _ => by decide) (hnot (by decide))
      (by decide) (by rfl) (fun _ => by trivial) h
  | startUnlock | entryUnlock | joinUnlock | exitUnlock =>
    obtain rfl := Option.some.inj h
    exact hs.release hold (by decide) (by decide) rfl (fun _ => by decide) rfl (by decide)
  | destroyUnlock exits =>
    obtain rfl := Option.some.inj h
    cases exits <;>
      exact hs.release hold (by decide) (by decide) rfl (fun _ => by decide) rfl (by decide)
  | startCheck => exact hs.startCheck hold h
  | startCreate =>
    obtain rfl := Option.some.inj h
    exact hs.startCreate hold
  | startState =>
    obtain rfl := Option.some.inj h
    exact hs.startState hold
  | joinCheck => exact hs.joinCheck hold h
  | joinWait =>
    obtain rfl := Option.some.inj h
    exact hs.joinWait hold
  | joinParked =>
    rw [JTCThread.stepThread] at h
    split at h
    · cases h
    · rename_i hi
      exact hs.acquire hold (by decide) (by decide) (by rfl) (fun _ => by decide) hi (by decide)
        (by rfl) (fun _ => by trivial) h
  | destroyCheck => exact hs.destroyCheck hold h
  | exitCheck => exact hs.exitCheck hold h
  | exitState =>
    obtain rfl := Option.some.inj h
    exact hs.exitState hold

/-- **Whoever is in a call has the object**, up to the end of the call that deletes it. -/
theorem Inv.alive (hs : Inv child s) (hi : ¬(s.threads i).away) : s.deleted = false := by
  have hneeds : (s.threads i).uses ∨ (s.threads i).needs ≠ [] → s.deleted = false := fun h =>
    (hs.counted.deletion.alive (hs.counted.refcount_ne_zero hs.unborn_of_destroyed h)).1
  have hdeletes : (s.threads i).deletes → s.deleted = false := fun h =>
    (hs.counted.deletion.deletes i h).2.1
  have hknows := hs.counted.ref.knows i
  generalize s.threads i = pc at hi hneeds hdeletes hknows
  cases pc with
  | unborn | idle | exited => exact absurd rfl hi
  | dropUnlock d delete_it =>
    cases delete_it with
    | true => exact hdeletes rfl
    | false =>
      -- whoever has seen that there are other references still has `m_ref_mutex`
      refine (hs.counted.deletion.alive fun hzero => ?_).1
      cases hknows.mpr hzero
  | dropDelete d => exact hdeletes rfl
  | dropLock d | dropCount d => exact hneeds (.inr (by cases d <;> decide))
  | copyLock temporary | copyCount temporary | copyUnlock temporary =>
    exact hneeds (by cases temporary <;> decide)
  | destroyUnlock exits =>
    cases exits with
    | true => exact hneeds (.inr (by decide))
    | false => exact hneeds (.inl rfl)
  | exitLock | exitCheck | exitState | exitUnlock => exact hneeds (.inr (by decide))
  | _ => exact hneeds (.inl rfl)

/-! ## The clients -/

/-- Thread `i` may use the object. -/
def Has (child : ι) (s : JTCThread ι) (i : ι) : Prop := .handle i ∈ s.refs ∨ i = child

instance (s : JTCThread ι) (i : ι) : Decidable (s.Has child i) :=
  inferInstanceAs (Decidable (.handle i ∈ s.refs ∨ i = child))

/-- What a client sees to when it calls the object: it has a handle, a new thread is not started and
destroyed at the same time, or destroyed twice, and one that was destroyed is not started.  The
state of that one is still `new_thread`, so that the code would start it, and would delete it while
there are handles. -/
def AllowedCall (child : ι) (s : JTCThread ι) (i : ι) : Op → Prop
  | .copy | .join => s.Has child i
  | .drop => .handle i ∈ s.refs
  | .start => s.Has child i ∧
    (s.m_state = .new_thread → s.destroyed = none ∧ ∀ j, ¬(s.threads j).destroys)
  | .destroy => s.Has child i ∧ (s.m_state = .new_thread →
    s.destroyed = none ∧ ∀ j, ¬(s.threads j).starts ∧ ¬(s.threads j).destroys)
  | .exit => i = child

/-- What the clients see to. -/
def Allowed (child : ι) (s : JTCThread ι) : Action ι → Prop
  | .call i op => s.AllowedCall child i op
  | .give i _ => s.threads i = .idle ∧ .handle i ∈ s.refs
  | .go _ | .createFails _ | .wakeup _ => True

instance [Fintype ι] (s : JTCThread ι) (i : ι) : ∀ op, Decidable (s.AllowedCall child i op)
  | .copy | .join => inferInstanceAs (Decidable (s.Has child i))
  | .drop => inferInstanceAs (Decidable (.handle i ∈ s.refs))
  | .start => inferInstanceAs (Decidable (s.Has child i ∧
    (s.m_state = .new_thread → s.destroyed = none ∧ ∀ j, ¬(s.threads j).destroys)))
  | .destroy => inferInstanceAs (Decidable (s.Has child i ∧ (s.m_state = .new_thread →
    s.destroyed = none ∧ ∀ j, ¬(s.threads j).starts ∧ ¬(s.threads j).destroys)))
  | .exit => inferInstanceAs (Decidable (i = child))

instance [Fintype ι] (s : JTCThread ι) : ∀ a, Decidable (s.Allowed child a)
  | .call i op => inferInstanceAs (Decidable (s.AllowedCall child i op))
  | .give i _ => inferInstanceAs (Decidable (s.threads i = .idle ∧ .handle i ∈ s.refs))
  | .go _ | .createFails _ | .wakeup _ => isTrue trivial

/-- A call begins with the references that it needs. -/
theorem Inv.here_call (hs : Inv child s) (hold : s.threads i = .idle) {op : Op}
    (hok : s.AllowedCall child i op) : Here child s.refs s.destroyed i op.start' := by
  have hhere := hs.counted.here i
  rw [hold] at hhere
  cases op with
  | copy | join =>
    exact ⟨fun _ => hok, fun d hd => (by cases hd), hhere.keeps, fun d hd => (by cases hd),
      fun h => absurd h Bool.false_ne_true⟩
  | start | destroy =>
    exact ⟨fun _ => hok.1, fun d hd => (by cases hd), hhere.keeps, fun d hd => (by cases hd),
      fun h => absurd h Bool.false_ne_true⟩
  | drop =>
    refine ⟨fun h => absurd h Bool.false_ne_true, fun d hd => ?_, hhere.keeps,
      fun d hd => (by cases hd), fun h => absurd h Bool.false_ne_true⟩
    obtain rfl := List.mem_singleton.mp hd
    exact hok
  | exit =>
    have hnone : s.destroyed = none := by
      by_contra hne
      obtain rfl := hok
      cases hold.symm.trans (hs.unborn_of_destroyed hne)
    exact ⟨fun h => absurd h Bool.false_ne_true, hhere.keeps hok hnone, hhere.keeps,
      fun d hd => (by cases hd), fun _ => .inl ⟨hnone, hok⟩⟩

/-- A call begins. -/
theorem Inv.call (hs : Inv child s) (hold : s.threads i = .idle) {op : Op}
    (hok : s.AllowedCall child i op) : Inv child (s.goto i op.start') := by
  have hplace : op.start' ≠ .unborn ∧ op.start' ≠ .startState ∧ op.start'.ended = false ∧
      op.start'.deletes = false ∧ ¬op.start'.holds ∧ ¬op.start'.holdsRef := by
    cases op <;> decide
  obtain ⟨hunborn, hstate, hended, hdeletes, hholds, hholdsRef⟩ := hplace
  have hcounted : Counted child (s.goto i op.start') :=
    hs.counted.move hold (hs.here_call hold hok) (fun h => absurd h Bool.false_ne_true) hdeletes
      (hs.counted.ref_goto hold ⟨Bool.false_ne_true, hholdsRef⟩)
  have hlifecycle : Lifecycle child (s.goto i op.start') := by
    refine hs.lifecycle.move hold ⟨by decide, hunborn⟩ ⟨by decide, hstate⟩ (fun _ => hended) ?_ ?_
      (hs.lifecycle.parked_goto (hs.lifecycle.not_mem hold (by decide)) _) hs.lifecycle.joinable
      (hs.lifecycle.mutex_goto hold ⟨Bool.false_ne_true, hholds⟩)
    · intro hstarts hnew
      cases op with
      | start => exact hok.2 hnew
      | _ => cases hstarts
    · intro hdestroys hnew
      cases op with
      | destroy =>
        obtain ⟨hnone, hnot⟩ := hok.2 hnew
        exact ⟨hnone, fun j => ⟨(hnot j).1, fun hj => absurd hj (hnot j).2⟩⟩
      | _ => cases hdestroys
  exact ⟨hcounted, hlifecycle, hs.fault⟩

/-- A wait ends without a reason. -/
theorem Inv.wakeup (hs : Inv child s) (i : ι) :
    Inv child { s with m_join_cond := s.m_join_cond.erase i } := by
  have hknows : ∀ pc : Pc, pc.Knows (s.m_state, s.m_join_cond) →
      pc.Knows (s.m_state, s.m_join_cond.erase i) := by
    intro pc h
    cases pc with
    | exitState => exact ⟨h.1, Finset.subset_empty.mp (h.2 ▸ Finset.erase_subset i s.m_join_cond)⟩
    | _ => exact h
  have hl := hs.lifecycle
  exact ⟨hs.counted.of_state, ⟨⟨hl.mutex.mutex, fun j => hknows _ (hl.mutex.knows j)⟩,
    fun j hj => hl.parked j (Finset.mem_of_mem_erase hj),
    fun h => hl.joinable (h.mono (Finset.erase_subset i _)), hl.unborn, hl.created, hl.creator,
    hl.ended, hl.running, hl.destroyed, hl.starts, hl.destroys⟩, hs.fault⟩

/-- **Every step keeps the invariant.** -/
theorem Inv.step (hs : Inv child s) {a : Action ι} (hok : s.Allowed child a)
    (h : s.step child a = some s') : Inv child s' := by
  have hquiet : ∀ {t : JTCThread ι} {j : ι}, Inv child t → ¬(s.threads j).away →
      Inv child { t with fault := s.fault || s.deleted } := by
    intro t j ht hj
    refine ⟨ht.counted.of_state, ht.lifecycle.of_refs, ?_⟩
    change (s.fault || s.deleted) = false
    rw [hs.fault, hs.alive hj]
    rfl
  cases a with
  | call i op =>
    rw [JTCThread.step] at h
    split at h
    · rename_i hold
      obtain rfl := Option.some.inj h
      exact hs.call hold hok
    · cases h
  | give i j =>
    obtain rfl := Option.some.inj h
    exact ⟨hs.counted.give hok.1 hok.2 j, hs.lifecycle.of_refs, hs.fault⟩
  | go i =>
    rw [JTCThread.step, Option.map_eq_some_iff] at h
    obtain ⟨t, ht, rfl⟩ := h
    refine hquiet (hs.stepThread rfl ht) (j := i) fun haway => ?_
    generalize s.threads i = pc at ht haway
    cases pc with
    | unborn | idle | exited => cases ht
    | _ => cases haway
  | createFails i =>
    rw [JTCThread.step] at h
    split at h
    · rename_i hold
      obtain rfl := Option.some.inj h
      refine hquiet ?_ (j := i) (by rw [hold]; exact Bool.false_ne_true)
      have hfollows : Pc.startCreate.Follows .startUnlock := by decide
      exact hs.goto hold hfollows (by decide) rfl (fun _ => by decide) (by decide) trivial
    · cases h
  | wakeup i =>
    rw [JTCThread.step] at h
    split at h
    · obtain rfl := Option.some.inj h
      exact hs.wakeup i
    · cases h

theorem inv_init (child i : ι) : Inv child (init child i) := by
  have hthreads : ∀ j, j = child ∧ (init child i).threads j = .unborn ∨
      j ≠ child ∧ (init child i).threads j = .idle := by
    intro j
    by_cases hj : j = child
    · exact .inl ⟨hj, if_pos hj⟩
    · exact .inr ⟨hj, if_neg hj⟩
  have haway : ∀ j, ((init child i).threads j).holds = false ∧
      ((init child i).threads j).holdsRef = false ∧ ((init child i).threads j).deletes = false ∧
      ((init child i).threads j).starts = false ∧ ((init child i).threads j).destroys = false ∧
      (init child i).threads j ≠ .startState := by
    intro j
    rcases hthreads j with ⟨-, h⟩ | ⟨-, h⟩ <;> rw [h] <;> decide
  have hunborn : (init child i).threads child = .unborn := if_pos rfl
  have hhere : ∀ j, Here child (init child i).refs none j ((init child i).threads j) := by
    intro j
    rcases hthreads j with ⟨-, h⟩ | ⟨hj, h⟩
    · rw [h]
      refine ⟨fun h => absurd h Bool.false_ne_true, fun d hd => (by cases hd), fun _ _ d hd => ?_,
        fun d hd => (by cases hd), fun h => absurd h Bool.false_ne_true⟩
      cases d <;> simp_all [Pc.keeps, init, dropped]
    · rw [h]
      exact ⟨fun h => absurd h Bool.false_ne_true, fun d hd => (by cases hd),
        fun h' => absurd h' hj, fun d hd => (by cases hd), fun h => absurd h Bool.false_ne_true⟩
  have hcounted : Counted child (init child i) := by
    refine ⟨⟨fun j => ?_, fun j => ?_⟩, rfl, ?_, hhere, fun j h => (by cases h),
      fun j hj => ?_, fun h => (by cases h), fun h => (by cases h)⟩
    · exact iff_of_false (by rw [(haway j).2.1]; exact Bool.false_ne_true) nofun
    · exact Pc.knowsRef_of_not_holdsRef _ _ (by rw [(haway j).2.1]; exact Bool.false_ne_true)
    · simp [init]
    · cases (haway j).2.2.1.symm.trans hj
  have hlifecycle : Lifecycle child (init child i) := by
    refine ⟨⟨fun j => ?_, fun j => ?_⟩, fun j hj => absurd hj (Finset.notMem_empty j),
      fun h => absurd h Finset.not_nonempty_empty, fun _ => rfl, fun h => absurd hunborn h,
      fun j hj => absurd hj (haway j).2.2.2.2.2, ⟨fun h => (by cases h), fun h => ?_⟩,
      fun h => (by cases h), fun h => absurd rfl h, fun _ j hj => ?_, fun _ j hj => ?_⟩
    · exact iff_of_false (by rw [(haway j).1]; exact Bool.false_ne_true) nofun
    · exact Pc.knows_of_not_holds _ _ (by rw [(haway j).1]; exact Bool.false_ne_true)
    · rw [hunborn] at h
      cases h
    · cases (haway j).2.2.2.1.symm.trans hj
    · cases (haway j).2.2.2.2.1.symm.trans hj
  exact ⟨hcounted, hlifecycle, rfl⟩

theorem inv_of_run {as : List (Action ι)}
    (hok : AllSteps (step child) (Allowed child) (init child i) as)
    (hrun : run (step child) (init child i) as = some s) : Inv child s := by
  have hstep : ∀ (s : JTCThread ι) (a : Action ι) (s' : JTCThread ι), Inv child s →
      s.Allowed child a → s.step child a = some s' → Inv child s' := fun _ _ _ hs hok h =>
    hs.step hok h
  exact run_invariant hstep (inv_init child i) hok hrun

/-- **The object lives as long as somebody has a reference, and is deleted once.**  After any steps
of any number of threads, nobody has used the object after it was deleted, and that includes the
delete itself.  The object is there while there is a reference to it and while somebody is in a
call, at most one thread is about to delete it, and when all references are gone and nobody is in a
call it is deleted. -/
theorem deleted_of_run {as : List (Action ι)}
    (hok : AllSteps (step child) (Allowed child) (init child i) as)
    (hrun : run (step child) (init child i) as = some s) :
    s.fault = false ∧ s.m_refcount = s.refs.card ∧ (s.refs ≠ 0 → s.deleted = false) ∧
      (∀ j, ¬(s.threads j).away → s.deleted = false) ∧
      (∀ j k, (s.threads j).deletes → (s.threads k).deletes → j = k) ∧
      (s.refs = 0 → (∀ j, (s.threads j).away) → s.deleted = true) := by
  have hs := inv_of_run hok hrun
  have hcount := hs.counted.count
  refine ⟨hs.fault, hcount, fun hne => ?_, fun j => hs.alive, fun j k hj => ?_,
    fun hrefs haway => ?_⟩
  · refine (hs.counted.deletion.alive fun hzero => hne ?_).1
    rw [hcount] at hzero
    exact Multiset.card_eq_zero.mp (by exact_mod_cast hzero)
  · exact (hs.counted.deletion.deletes j hj).2.2 k
  · rw [hrefs] at hcount
    refine (hs.counted.deletion.kept hcount).resolve_right ?_
    rintro ⟨j, hj⟩
    have hj' := haway j
    generalize s.threads j = pc at hj hj'
    cases pc with
    | unborn | idle | exited => cases hj
    | _ => cases hj'

/-- Thread `i` starts the other thread and gives a handle to thread `j`, which joins it. -/
def startAndJoin (child i j : Fin 3) : List (Action (Fin 3)) :=
  .call i .start :: List.replicate 5 (.go i) ++ .call i .copy :: List.replicate 3 (.go i) ++
    [.give i j, .go child, .go child, .call j .join, .go j, .go j, .go j]

/-- The other thread ends, thread `j` returns, and both handles are dropped. -/
def exitAndDrop (child i j : Fin 3) : List (Action (Fin 3)) :=
  .call child .exit :: List.replicate 16 (.go child) ++ [.go j, .go j, .go j] ++
    .call i .drop :: List.replicate 3 (.go i) ++ .call j .drop :: List.replicate 4 (.go j)

/-- The last handle is dropped by a thread that has joined the other one. -/
theorem deleted_of_run_last : ∃ s : JTCThread (Fin 3),
    run (step 2) (init 2 0) (startAndJoin 2 0 1 ++ exitAndDrop 2 0 1) = some s ∧
      s.fault = false ∧ s.deleted = true := by
  have hok : AllSteps (step 2) (Allowed 2) (init 2 0)
      (startAndJoin 2 0 1 ++ exitAndDrop 2 0 1) := by decide +kernel
  have hsome : (run (step 2) (init 2 0) (startAndJoin 2 0 1 ++ exitAndDrop 2 0 1)).isSome := by
    decide +kernel
  obtain ⟨s, hrun⟩ := Option.isSome_iff_exists.mp hsome
  have hend : ∀ s ∈ run (step 2) (init 2 0) (startAndJoin 2 0 1 ++ exitAndDrop 2 0 1),
      s.refs = 0 ∧ ∀ j, (s.threads j).away := by decide +kernel
  obtain ⟨hrefs, haway⟩ := hend s hrun
  obtain ⟨hfault, -, -, -, -, hdeleted⟩ := deleted_of_run hok hrun
  exact ⟨s, hrun, hfault, hdeleted hrefs haway⟩

/-! ## Progress -/

omit [DecidableEq ι] in
/-- A thread that joins finds the object in the state of a new thread or of a dead one. -/
theorem Lifecycle.of_joinUnlock (hs : Lifecycle child s) (hold : s.threads i = .joinUnlock) :
    s.threads child = .unborn ∨ (s.threads child).ended := by
  have hknows := hs.mutex.knows i
  rw [hold] at hknows
  have hruns : ¬s.m_state.Runs := hknows
  by_cases hnew : s.m_state = .new_thread
  · exact .inl (hs.unborn_of_holds (i := i) (by rw [hold]; rfl) (by simp [hold]) hnew)
  · refine .inr (hs.ended.mp ?_)
    generalize s.m_state = m_state at hruns hnew
    cases m_state with
    | new_thread => exact absurd rfl hnew
    | runnable => exact absurd (.inl rfl) hruns
    | not_runnable => exact absurd (.inr rfl) hruns
    | dead => rfl

omit [DecidableEq ι] in
/-- When the thread is dead nobody is blocked. -/
theorem Lifecycle.join_cond_eq_empty (hs : Lifecycle child s) (hended : (s.threads child).ended) :
    s.m_join_cond = ∅ := by
  by_contra hne
  have hrunnable := hs.joinable (Finset.nonempty_iff_ne_empty.mpr hne)
  cases hrunnable.symm.trans (hs.ended.mpr hended)

/-- A thread is held up only by a mutex that somebody has, or in the condition. -/
theorem stepThread_isSome (hmutex : s.m_mutex = none ∨ pc.holds) (href : s.m_ref_mutex = none ∨
    pc.holdsRef) (haway : ¬pc.away) (hparked : pc = .joinParked → i ∉ s.m_join_cond) :
    (s.stepThread child i pc).isSome := by
  cases pc with
  | unborn | idle | exited => exact absurd rfl haway
  | copyLock temporary | dropLock d =>
    have hfree : s.m_ref_mutex = none := href.resolve_right Bool.false_ne_true
    simp [stepThread, acquireRef, hfree]
  | startLock | entryLock | joinLock | destroyLock | exitLock =>
    have hfree : s.m_mutex = none := hmutex.resolve_right Bool.false_ne_true
    simp [stepThread, acquire, hfree]
  | joinParked =>
    have hfree : s.m_mutex = none := hmutex.resolve_right Bool.false_ne_true
    simp [stepThread, acquire, hfree, hparked rfl]
  | destroyCheck | exitCheck =>
    rw [stepThread]
    split <;> rfl
  | _ => rfl

/-- **A join returns when the thread is finished, and nobody is left waiting.**  After any steps of
any number of threads, a thread that returns from `join` finds that the other one was never created
or has ended, and when that one has ended nobody is blocked.  If nobody can go on without a new
call, whoever is in a call is blocked in `join`, and the thread it waits for is between two calls,
or blocked as well in a join of itself. -/
theorem join_of_run {as : List (Action ι)}
    (hok : AllSteps (step child) (Allowed child) (init child i) as)
    (hrun : run (step child) (init child i) as = some s) :
    (∀ j, s.threads j = .joinUnlock → s.threads child = .unborn ∨ (s.threads child).ended) ∧
      ((s.threads child).ended → s.m_join_cond = ∅) ∧
      ((∀ j, ¬(s.step child (.go j)).isSome) → ∀ j, ¬(s.threads j).away →
        s.threads j = .joinParked ∧ j ∈ s.m_join_cond ∧
          (s.threads child = .idle ∨ s.threads child = .joinParked ∧ child ∈ s.m_join_cond)) := by
  have hs := inv_of_run hok hrun
  refine ⟨fun j => hs.lifecycle.of_joinUnlock, hs.lifecycle.join_cond_eq_empty, fun hstuck => ?_⟩
  have hgo : ∀ j, ¬(s.stepThread child j (s.threads j)).isSome := by
    intro j hj
    exact hstuck j (by rw [JTCThread.step, Option.isSome_map]; exact hj)
  -- whoever has `m_ref_mutex` can go on, and so can whoever has `m_mutex`
  have href : s.m_ref_mutex = none := by
    refine Option.eq_none_iff_forall_ne_some.mpr fun j hj => hgo j ?_
    have hholdsRef := (hs.counted.ref.mutex j).mpr hj
    generalize s.threads j = pc at hholdsRef
    cases pc with
    | copyCount temporary | copyUnlock temporary | dropCount d | dropUnlock d delete_it => rfl
    | _ => cases hholdsRef
  have hmutex : s.m_mutex = none := by
    refine Option.eq_none_iff_forall_ne_some.mpr fun j hj => hgo j ?_
    have hholds := (hs.lifecycle.mutex.mutex j).mpr hj
    refine stepThread_isSome (.inr hholds) (.inl href) (fun haway => ?_) fun hparked => ?_
    · generalize s.threads j = pc at hholds haway
      cases pc with
      | unborn | idle | exited => cases hholds
      | _ => cases haway
    · rw [hparked] at hholds
      cases hholds
  have hblocked : ∀ j, ¬(s.threads j).away → s.threads j = .joinParked ∧ j ∈ s.m_join_cond := by
    intro j hj
    by_contra hnot
    exact hgo j (stepThread_isSome (.inl hmutex) (.inl href) hj fun hparked hmem =>
      hnot ⟨hparked, hmem⟩)
  intro j hj
  obtain ⟨hparked, hmem⟩ := hblocked j hj
  refine ⟨hparked, hmem, ?_⟩
  have hrunnable := hs.lifecycle.joinable ⟨j, hmem⟩
  by_cases haway : (s.threads child).away
  · left
    have hunborn : s.threads child ≠ .unborn := fun h => by
      cases hrunnable.symm.trans (hs.lifecycle.unborn h)
    have hended : ¬(s.threads child).ended := fun h => by
      cases hrunnable.symm.trans (hs.lifecycle.ended.mpr h)
    generalize s.threads child = pc at haway hunborn hended
    cases pc with
    | idle => rfl
    | unborn => exact absurd rfl hunborn
    | exited => exact absurd rfl hended
    | _ => cases haway
  · exact .inr (hblocked child haway)

/-- Thread 1 waits for a thread that does not end. -/
theorem join_of_run_waiting : ∃ s : JTCThread (Fin 3),
    run (step 2) (init 2 0) (startAndJoin 2 0 1) = some s ∧
      s.threads 1 = .joinParked ∧ s.threads 2 = .idle := by
  have hok : AllSteps (step 2) (Allowed 2) (init 2 0) (startAndJoin 2 0 1) := by decide +kernel
  have hsome : (run (step 2) (init 2 0) (startAndJoin 2 0 1)).isSome := by decide +kernel
  obtain ⟨s, hrun⟩ := Option.isSome_iff_exists.mp hsome
  have hend : ∀ s ∈ run (step 2) (init 2 0) (startAndJoin 2 0 1),
      (∀ j, ¬(step 2 s (.go j)).isSome) ∧ ¬(s.threads 1).away ∧ 2 ∉ s.m_join_cond := by
    decide +kernel
  obtain ⟨hstuck, hin, hnot⟩ := hend s hrun
  obtain ⟨hparked, -, hidle⟩ := (join_of_run hok hrun).2.2 hstuck 1 hin
  exact ⟨s, hrun, hparked, hidle.resolve_right fun h => hnot h.2⟩

end JTCThread

end CppCore.Pal
