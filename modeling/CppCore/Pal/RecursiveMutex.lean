import CppCore.Lib.Run
import CppCore.Lib.Guarded
import Mathlib.Data.Finset.Basic
import Mathlib.Tactic.ByContra

/-!
# The recursive mutex

`JTCRecursiveMutex` is made of two mutexes: `m_internal` is held for a moment to look at the owner
and the count, and `m_lock` by the owner.  A thread that finds another owner releases `m_internal`,
takes `m_lock` and releases it at once, to wait for the owner, and looks again.  The owner of a free
mutex takes `m_lock` with `m_internal` in its hands.

`JTCCond::wait` gives the mutex up whatever its count is: `reset_for_condvar` clears the count and
the owner but leaves `m_lock` to `pthread_cond_wait`, and the destructor of `JTCCondHelper` releases
`m_lock`, which the wait has taken again, and locks the mutex as many times as before.

A system is a place for each of any number of threads, and how often each has locked the mutex from
its own point of view, which the code does not store.  A thread calls `unlock` and `wait` only when
it has locked the mutex.  The count is a word of 32 bits: it is the depth of the owner as long as
no thread locks the mutex `2 ^ 32` times.

## Main definitions

* `Pc`, `JTCRecursiveMutex` — where the threads are, and what they share.
* `step` — one step of one thread.
* `Shallow` — the condition that the count does not wrap around.
* `Local`, `Inv` — what a thread can tell of the shared state, and the invariant made of it.
* `owner_of_run` — one owner, which holds both locks, and a count that survives the waits.
* `no_deadlock` — the two locks never block each other.
-/

namespace CppCore.Pal

open Lib Function

/-! ## The threads -/

namespace RecursiveMutex

/-- Where a thread is.  A place of `lock_internal( count )` says whether it belongs to the end of a
wait. -/
inductive Pc (ι : Type)
  /-- Between two calls. -/
  | idle
  /-- `lock_internal`: `m_internal.lock()`. -/
  | lockEnter (count : UInt32) (wait : Bool)
  /-- The decision, with `m_internal`. -/
  | lockCheck (count : UInt32) (wait : Bool)
  /-- `pthread_mutex_lock(&m_lock)` of the new owner, with `m_internal`. -/
  | lockTake (wait : Bool)
  /-- `m_internal.unlock()` with the mutex obtained, to return `rc`. -/
  | lockLeave (rc wait : Bool)
  /-- `m_internal.unlock()` without. -/
  | lockMiss (count : UInt32) (wait : Bool)
  /-- `pthread_mutex_lock(&m_lock)` of a thread that has to wait. -/
  | lockWait (count : UInt32) (wait : Bool)
  /-- `pthread_mutex_unlock(&m_lock)` right after. -/
  | lockPass (count : UInt32) (wait : Bool)
  /-- `trylock_internal`: `m_internal.lock()`. -/
  | tryEnter
  /-- The decision, with `m_internal`. -/
  | tryCheck
  /-- `pthread_mutex_lock(&m_lock)`, with `m_internal`. -/
  | tryTake
  /-- `m_internal.unlock()`, to return `obtained`. -/
  | tryLeave (obtained : Bool)
  /-- `unlock_internal`: `m_internal.lock()`. -/
  | unlockEnter
  /-- `if (--m_count == 0)`, with `m_internal`. -/
  | unlockCheck
  /-- `pthread_mutex_unlock(&m_lock)`, with `m_internal`. -/
  | unlockRelease
  /-- `m_internal.unlock()`, to return `rc`. -/
  | unlockLeave (rc : Bool)
  /-- `reset_for_condvar`: `m_internal.lock()`. -/
  | resetEnter
  /-- The count and the owner are cleared, with `m_internal`. -/
  | resetClear
  /-- `m_internal.unlock()`. -/
  | resetLeave (count : UInt32)
  /-- The call of `pthread_cond_wait`, with `m_lock`. -/
  | waitEnter (count : UInt32)
  /-- In the wait, until it is over and the thread has `m_lock` again. -/
  | waitParked (count : UInt32)
  /-- `~JTCCondHelper`: `pthread_mutex_unlock(&m_mutex.m_lock)`. -/
  | waitLeave (count : UInt32)
  /-- `get_owner`: `m_internal.lock()`. -/
  | ownerEnter
  /-- `if (m_count > 0) id = m_owner`, with `m_internal`. -/
  | ownerRead
  /-- `m_internal.unlock()`, to return `id`. -/
  | ownerLeave (id : Option ι)
  deriving DecidableEq, Repr

namespace Pc

variable {ι : Type}

/-- The thread has `m_internal`. -/
def HoldsInternal : Pc ι → Prop
  | lockCheck _ _ | lockTake _ | lockLeave _ _ | lockMiss _ _ | tryCheck | tryTake => True
  | tryLeave _ | unlockCheck | unlockRelease | unlockLeave _ | resetClear | resetLeave _ => True
  | ownerRead | ownerLeave _ => True
  | _ => False

/-- The thread owns the mutex and is about to take `m_lock`. -/
def Taking : Pc ι → Prop
  | lockTake _ | tryTake => True
  | _ => False

/-- The thread has `m_lock` although it does not own the mutex. -/
def HasLock : Pc ι → Prop
  | lockPass _ _ | unlockRelease | resetLeave _ | waitEnter _ | waitLeave _ => True
  | _ => False

/-- The thread has given the mutex up in a wait, and does not have it back. -/
def Away : Pc ι → Prop
  | resetLeave _ | waitEnter _ | waitParked _ | waitLeave _ => True
  | lockEnter _ wait | lockCheck _ wait | lockMiss _ wait | lockWait _ wait => wait = true
  | lockPass _ wait => wait = true
  | _ => False

/-- What a thread knows of how often it has locked the mutex, and what it will return. -/
def Knows (depth : ℕ) (m_owner : Option ι) : Pc ι → Prop
  | lockEnter count wait | lockCheck count wait =>
    if wait then count.toNat = depth ∧ 0 < depth else count = 1 ∧ depth + 1 < 2 ^ 32
  | lockMiss count wait | lockWait count wait | lockPass count wait =>
    if wait then count.toNat = depth ∧ 0 < depth else count = 1 ∧ depth = 0
  | lockTake wait => 0 < depth ∧ (wait = false → depth = 1)
  | lockLeave rc wait => 0 < depth ∧ (wait = false → (rc = true ↔ depth = 1))
  | tryEnter | tryCheck => depth + 1 < 2 ^ 32
  | tryTake => depth = 1
  | tryLeave obtained => obtained = true ↔ 0 < depth
  | unlockEnter | unlockCheck | resetEnter | resetClear => 0 < depth
  | unlockRelease => depth = 0
  | unlockLeave rc => rc = true ↔ depth = 0
  | resetLeave count | waitEnter count | waitParked count | waitLeave count =>
    count.toNat = depth ∧ 0 < depth
  | ownerLeave id => id = m_owner
  | _ => True

/-- Only who has `m_internal` knows the owner. -/
theorem Knows.of_not_holds {depth : ℕ} {o o' : Option ι} {pc : Pc ι} (h : pc.Knows depth o)
    (hpc : ¬pc.HoldsInternal) : pc.Knows depth o' := by
  cases pc with
  | ownerLeave id => exact absurd trivial hpc
  | _ => exact h

end Pc

/-- The calls. -/
inductive Op
  | lock
  | trylock
  | unlock
  | wait
  | get_owner
  deriving DecidableEq, Repr

/-- Where a call begins, if a thread that has locked the mutex so many times may make it. -/
def Op.start {ι : Type} (depth : ℕ) : Op → Option (Pc ι)
  | lock => some (.lockEnter 1 false)
  | trylock => some .tryEnter
  | unlock => if 0 < depth then some .unlockEnter else none
  | wait => if 0 < depth then some .resetEnter else none
  | get_owner => some .ownerEnter

/-- What can happen next. -/
inductive Action (ι : Type)
  /-- A thread calls the mutex or the condition. -/
  | call (i : ι) (op : Op)
  /-- A thread goes on. -/
  | go (i : ι)
  /-- A wait is over, by a signal, a broadcast, a timeout or without a reason. -/
  | wakeup (i : ι)
  deriving DecidableEq, Repr

/-- The thread that wants to lock the mutex once more. -/
def Action.locks {ι : Type} : Action ι → Option ι
  | call i .lock | call i .trylock => some i
  | _ => none

end RecursiveMutex

open RecursiveMutex

/-- What the threads share, where they are, and how often they have locked the mutex. -/
structure JTCRecursiveMutex (ι : Type) where
  /-- Who has `m_lock`. -/
  m_lock : Option ι
  /-- Who has `m_internal`. -/
  m_internal : Option ι
  /-- The number of times the mutex has been acquired. -/
  m_count : UInt32
  /-- The current owner of the mutex. -/
  m_owner : Option ι
  /-- Who is blocked in `m_cond`. -/
  m_cond : Finset ι
  /-- The threads. -/
  threads : ι → Pc ι
  /-- How often a thread has locked the mutex and not unlocked it. -/
  depth : ι → ℕ

namespace JTCRecursiveMutex

variable {ι : Type}

/-- A free mutex, and no call in progress. -/
def init : JTCRecursiveMutex ι := ⟨none, none, 0, none, ∅, fun _ => .idle, fun _ => 0⟩

section Step

variable [DecidableEq ι]

/-- Thread `i` goes on at `pc`. -/
def goto (s : JTCRecursiveMutex ι) (i : ι) (pc : Pc ι) : JTCRecursiveMutex ι :=
  { s with threads := update s.threads i pc }

/-- `m_internal.lock()`. -/
def lockInternal (s : JTCRecursiveMutex ι) (i : ι) (pc : Pc ι) : Option (JTCRecursiveMutex ι) :=
  if s.m_internal = none then some { s.goto i pc with m_internal := some i } else none

/-- `m_internal.unlock()`. -/
def unlockInternal (s : JTCRecursiveMutex ι) (i : ι) (pc : Pc ι) : JTCRecursiveMutex ι :=
  { s.goto i pc with m_internal := none }

/-- `pthread_mutex_lock(&m_lock)`. -/
def lockLock (s : JTCRecursiveMutex ι) (i : ι) (pc : Pc ι) : Option (JTCRecursiveMutex ι) :=
  if s.m_lock = none then some { s.goto i pc with m_lock := some i } else none

/-- `pthread_mutex_unlock(&m_lock)`. -/
def unlockLock (s : JTCRecursiveMutex ι) (i : ι) (pc : Pc ι) : JTCRecursiveMutex ι :=
  { s.goto i pc with m_lock := none }

/-- Thread `i` has obtained the mutex `count` times more. -/
def obtain (s : JTCRecursiveMutex ι) (i : ι) (m_count : UInt32) (depth : ℕ) (pc : Pc ι) :
    JTCRecursiveMutex ι :=
  { s.goto i pc with
    m_count := m_count, m_owner := some i, depth := update s.depth i depth }

/-- A step of thread `i`, which is at the given place. -/
def stepThread (s : JTCRecursiveMutex ι) (i : ι) : Pc ι → Option (JTCRecursiveMutex ι)
  | .idle => none
  | .lockEnter count wait => s.lockInternal i (.lockCheck count wait)
  | .lockCheck count wait =>
    if s.m_count = 0 then
      some (s.obtain i count (if wait then s.depth i else s.depth i + count.toNat) (.lockTake wait))
    else if s.m_owner = some i then
      some (s.obtain i (s.m_count + count) (if wait then s.depth i else s.depth i + count.toNat)
        (.lockLeave false wait))
    else some (s.goto i (.lockMiss count wait))
  | .lockTake wait => s.lockLock i (.lockLeave true wait)
  | .lockLeave _ _ => some (s.unlockInternal i .idle)
  | .lockMiss count wait => some (s.unlockInternal i (.lockWait count wait))
  | .lockWait count wait => s.lockLock i (.lockPass count wait)
  | .lockPass count wait => some (s.unlockLock i (.lockEnter count wait))
  | .tryEnter => s.lockInternal i .tryCheck
  | .tryCheck =>
    if s.m_count = 0 then some (s.obtain i 1 (s.depth i + 1) .tryTake)
    else if s.m_owner = some i then
      some (s.obtain i (s.m_count + 1) (s.depth i + 1) (.tryLeave true))
    else some (s.goto i (.tryLeave false))
  | .tryTake => s.lockLock i (.tryLeave true)
  | .tryLeave _ => some (s.unlockInternal i .idle)
  | .unlockEnter => s.lockInternal i .unlockCheck
  | .unlockCheck =>
    if s.m_count - 1 = 0 then
      some { s.goto i .unlockRelease with
        m_count := s.m_count - 1, m_owner := none, depth := update s.depth i (s.depth i - 1) }
    else
      some { s.goto i (.unlockLeave false) with
        m_count := s.m_count - 1, depth := update s.depth i (s.depth i - 1) }
  | .unlockRelease => some (s.unlockLock i (.unlockLeave true))
  | .unlockLeave _ => some (s.unlockInternal i .idle)
  | .resetEnter => s.lockInternal i .resetClear
  | .resetClear => some { s.goto i (.resetLeave s.m_count) with m_count := 0, m_owner := none }
  | .resetLeave count => some (s.unlockInternal i (.waitEnter count))
  | .waitEnter count =>
    some { s.unlockLock i (.waitParked count) with m_cond := insert i s.m_cond }
  | .waitParked count => if i ∈ s.m_cond then none else s.lockLock i (.waitLeave count)
  | .waitLeave count => some (s.unlockLock i (.lockEnter count true))
  | .ownerEnter => s.lockInternal i .ownerRead
  | .ownerRead => some (s.goto i (.ownerLeave (if 0 < s.m_count then s.m_owner else none)))
  | .ownerLeave _ => some (s.unlockInternal i .idle)

/-- One step. -/
def step (s : JTCRecursiveMutex ι) : Action ι → Option (JTCRecursiveMutex ι)
  | .call i op =>
    if s.threads i = .idle then (op.start (s.depth i)).map fun pc => s.goto i pc else none
  | .go i => s.stepThread i (s.threads i)
  | .wakeup i => if i ∈ s.m_cond then some { s with m_cond := s.m_cond.erase i } else none

end Step

/-- A thread does not lock the mutex once more when the count has no room for it. -/
def Shallow (s : JTCRecursiveMutex ι) (a : Action ι) : Prop :=
  ∀ i ∈ a.locks, s.depth i + 1 < 2 ^ 32

instance (s : JTCRecursiveMutex ι) (a : Action ι) : Decidable (s.Shallow a) :=
  inferInstanceAs (Decidable (∀ i ∈ a.locks, s.depth i + 1 < 2 ^ 32))

/-! ## The invariant -/

/-- What thread `i` can tell of the shared state: whether it has either lock and owns the mutex, and
the count if it does. -/
structure Local (i : ι) (pc : Pc ι) (depth : ℕ) (hasInternal hasLock : Prop)
    (m_owner : Option ι) (m_count : UInt32) : Prop where
  internal : hasInternal ↔ pc.HoldsInternal
  /-- The owner is who has locked the mutex, except during a wait. -/
  owner : m_owner = some i ↔ 0 < depth ∧ ¬pc.Away
  /-- The owner has `m_lock`, and so has who is about to release it. -/
  lock : hasLock ↔ m_owner = some i ∧ ¬pc.Taking ∨ pc.HasLock
  count : m_owner = some i → m_count.toNat = depth
  knows : pc.Knows depth m_owner

/-- What holds in every state of every run. -/
structure Inv (s : JTCRecursiveMutex ι) : Prop where
  here : ∀ i, Local i (s.threads i) (s.depth i) (s.m_internal = some i) (s.m_lock = some i)
    s.m_owner s.m_count
  /-- A mutex without an owner has not been acquired. -/
  count : s.m_owner = none → s.m_count = 0
  parked : ∀ i ∈ s.m_cond, ∃ count, s.threads i = .waitParked count

theorem inv_init : Inv (init : JTCRecursiveMutex ι) where
  here i := by constructor <;> simp [init, Pc.HoldsInternal, Pc.HasLock, Pc.Knows]
  count _ := rfl
  parked i hi := by cases hi

variable {s s' : JTCRecursiveMutex ι} {i : ι} {pc old : Pc ι} {depth : ℕ}

theorem Inv.here_of (hs : Inv s) (hold : s.threads i = old) : Local i old (s.depth i)
    (s.m_internal = some i) (s.m_lock = some i) s.m_owner s.m_count := hold ▸ hs.here i

/-- A place that has as much of `m_lock` knows the same of it. -/
theorem Local.lock_congr {hasInternal hasLock : Prop} {m_owner : Option ι} {m_count : UInt32}
    (h : Local i old depth hasInternal hasLock m_owner m_count) (htaking : pc.Taking ↔ old.Taking)
    (hhas : pc.HasLock ↔ old.HasLock) : hasLock ↔ m_owner = some i ∧ ¬pc.Taking ∨ pc.HasLock := by
  rw [htaking, hhas]
  exact h.lock

/-- A thread that is not parked is not blocked in the condition. -/
theorem Inv.not_mem (hs : Inv s) (hold : s.threads i = old)
    (hparked : ∀ count, old ≠ .waitParked count) : i ∉ s.m_cond := by
  intro hi
  obtain ⟨count, hcount⟩ := hs.parked i hi
  exact hparked count (hold.symm.trans hcount)

variable [DecidableEq ι]

/-- **What a step of one thread has to show.**  The locks and the owner are as they were for the
others, and the count is for the owner.  Only a thread with `m_internal` changes the owner. -/
theorem Inv.of_goto (hs : Inv s) (hthreads : s'.threads = update s.threads i pc)
    (hdepth : s'.depth = update s.depth i depth)
    (hinternal : ∀ j ≠ i, s'.m_internal = some j ↔ s.m_internal = some j)
    (hlock : ∀ j ≠ i, s'.m_lock = some j ↔ s.m_lock = some j)
    (howner : ∀ j ≠ i, s'.m_owner = some j ↔ s.m_owner = some j)
    (hheld : s'.m_owner = s.m_owner ∨ s.m_internal = some i)
    (hcount : ∀ j ≠ i, s.m_owner = some j → s'.m_count = s.m_count)
    (hzero : s'.m_owner = none → s'.m_count = 0)
    (hself : Local i pc depth (s'.m_internal = some i) (s'.m_lock = some i) s'.m_owner s'.m_count)
    (hparked : ∀ j ∈ s'.m_cond, ∃ count, s'.threads j = .waitParked count) : Inv s' where
  here j := by
    rcases eq_or_ne j i with rfl | hj
    · rw [hthreads, hdepth, update_self, update_self]
      exact hself
    · have hj' := hs.here j
      rw [hthreads, hdepth, update_of_ne hj, update_of_ne hj, propext (hinternal j hj),
        propext (hlock j hj)]
      refine ⟨hj'.internal, (howner j hj).trans hj'.owner,
        hj'.lock.trans (or_congr_left (and_congr_left' (howner j hj).symm)), fun h => ?_, ?_⟩
      · have hown := (howner j hj).mp h
        rw [hcount j hj hown]
        exact hj'.count hown
      · rcases hheld with heq | hheld
        · rw [heq]
          exact hj'.knows
        · refine hj'.knows.of_not_holds (mt hj'.internal.mpr fun h => hj ?_)
          exact Option.some.inj (h.symm.trans hheld)
  count := hzero
  parked := hparked

/-- Who is blocked in the condition is not the thread that goes on. -/
theorem Inv.parked_update (hs : Inv s) (hi : i ∉ s.m_cond) :
    ∀ j ∈ s.m_cond, ∃ count, update s.threads i pc j = .waitParked count := by
  intro j hj
  rw [update_of_ne (ne_of_mem_of_not_mem hj hi)]
  exact hs.parked j hj

omit [DecidableEq ι] in
/-- Taking and releasing a lock is nothing to the others. -/
theorem some_iff_of_ne {j : ι} (hj : j ≠ i) : some i = some j ↔ (none : Option ι) = some j :=
  iff_of_false (fun h => hj (Option.some.inj h).symm) nofun

/-- A step that takes or releases a lock, or neither, and leaves the owner and the count. -/
theorem Inv.move (hs : Inv s) (hold : s.threads i = old) (hi : i ∉ s.m_cond)
    {m_internal m_lock : Option ι}
    (hinternal : ∀ j ≠ i, m_internal = some j ↔ s.m_internal = some j)
    (hlock : ∀ j ≠ i, m_lock = some j ↔ s.m_lock = some j)
    (hself : m_internal = some i ↔ pc.HoldsInternal)
    (hself' : m_lock = some i ↔ s.m_owner = some i ∧ ¬pc.Taking ∨ pc.HasLock)
    (haway : pc.Away ↔ old.Away) (hknows : pc.Knows (s.depth i) s.m_owner) :
    Inv { s.goto i pc with m_internal := m_internal, m_lock := m_lock } := by
  have hhere := hs.here_of hold
  exact hs.of_goto rfl (update_eq_self i s.depth).symm hinternal hlock (fun _ _ => Iff.rfl)
    (.inl rfl) (fun _ _ _ => rfl) hs.count
    ⟨hself, hhere.owner.trans (and_congr_right' (not_congr haway.symm)), hself', hhere.count,
      hknows⟩ (hs.parked_update hi)

/-- A thread without either lock's business goes on. -/
theorem inv_goto (hs : Inv s) (hold : s.threads i = old) (hi : i ∉ s.m_cond)
    (hholds : pc.HoldsInternal ↔ old.HoldsInternal) (htaking : pc.Taking ↔ old.Taking)
    (hhas : pc.HasLock ↔ old.HasLock) (haway : pc.Away ↔ old.Away)
    (hknows : pc.Knows (s.depth i) s.m_owner) : Inv (s.goto i pc) := by
  have hhere := hs.here_of hold
  exact hs.move hold hi (fun _ _ => Iff.rfl) (fun _ _ => Iff.rfl)
    (hhere.internal.trans hholds.symm) (hhere.lock_congr htaking hhas) haway hknows

/-- `m_internal.lock()`. -/
theorem inv_lockInternal (hs : Inv s) (hold : s.threads i = old) (hi : i ∉ s.m_cond)
    (h : s.lockInternal i pc = some s') (hholds : pc.HoldsInternal)
    (htaking : pc.Taking ↔ old.Taking) (hhas : pc.HasLock ↔ old.HasLock)
    (haway : pc.Away ↔ old.Away)
    (hknows : old.Knows (s.depth i) s.m_owner → pc.Knows (s.depth i) s.m_owner) :
    Inv s' := by
  rw [lockInternal] at h
  split at h
  · rename_i hfree
    obtain rfl := Option.some.inj h
    have hhere := hs.here_of hold
    refine hs.move hold hi (fun j hj => ?_) (fun _ _ => Iff.rfl) (iff_of_true rfl hholds)
      (hhere.lock_congr htaking hhas) haway (hknows hhere.knows)
    rw [hfree]
    exact some_iff_of_ne hj
  · cases h

/-- `m_internal.unlock()`. -/
theorem inv_unlockInternal (hs : Inv s) (hold : s.threads i = old) (hi : i ∉ s.m_cond)
    (hholds : old.HoldsInternal) (hfree : ¬pc.HoldsInternal) (htaking : pc.Taking ↔ old.Taking)
    (hhas : pc.HasLock ↔ old.HasLock) (haway : pc.Away ↔ old.Away)
    (hknows : old.Knows (s.depth i) s.m_owner → pc.Knows (s.depth i) s.m_owner) :
    Inv (s.unlockInternal i pc) := by
  have hhere := hs.here_of hold
  refine hs.move hold hi (fun j hj => ?_) (fun _ _ => Iff.rfl) (iff_of_false nofun hfree)
    (hhere.lock_congr htaking hhas) haway (hknows hhere.knows)
  rw [hhere.internal.mpr hholds]
  exact (some_iff_of_ne hj).symm

/-- `pthread_mutex_lock(&m_lock)`, by the owner or by a thread that will release it. -/
theorem inv_lockLock (hs : Inv s) (hold : s.threads i = old) (hi : i ∉ s.m_cond)
    (h : s.lockLock i pc = some s') (hholds : pc.HoldsInternal ↔ old.HoldsInternal)
    (hhas : s.m_owner = some i ∧ ¬pc.Taking ∨ pc.HasLock) (haway : pc.Away ↔ old.Away)
    (hknows : old.Knows (s.depth i) s.m_owner → pc.Knows (s.depth i) s.m_owner) : Inv s' := by
  rw [lockLock] at h
  split at h
  · rename_i hfree
    obtain rfl := Option.some.inj h
    have hhere := hs.here_of hold
    refine hs.move hold hi (fun _ _ => Iff.rfl) (fun j hj => ?_) (hhere.internal.trans hholds.symm)
      (iff_of_true rfl hhas) haway (hknows hhere.knows)
    rw [hfree]
    exact some_iff_of_ne hj
  · cases h

/-- `pthread_mutex_unlock(&m_lock)`, by a thread that does not own the mutex. -/
theorem inv_unlockLock (hs : Inv s) (hold : s.threads i = old) (hi : i ∉ s.m_cond)
    (hholds : pc.HoldsInternal ↔ old.HoldsInternal) (hlock : old.HasLock) (hfree : ¬pc.HasLock)
    (howner : old.Knows (s.depth i) s.m_owner → s.depth i = 0 ∨ old.Away)
    (haway : pc.Away ↔ old.Away)
    (hknows : old.Knows (s.depth i) s.m_owner → pc.Knows (s.depth i) s.m_owner) :
    Inv (s.unlockLock i pc) := by
  have hhere := hs.here_of hold
  have hnot : ¬s.m_owner = some i := by
    rw [hhere.owner]
    rcases howner hhere.knows with hzero | haway
    · exact fun h => h.1.ne' hzero
    · exact fun h => h.2 haway
  refine hs.move hold hi (fun _ _ => Iff.rfl) (fun j hj => ?_) (hhere.internal.trans hholds.symm)
    (iff_of_false nofun fun h => h.elim (fun h => hnot h.1) hfree) haway (hknows hhere.knows)
  rw [hhere.lock.mpr (.inr hlock)]
  exact (some_iff_of_ne hj).symm

omit [DecidableEq ι] in
/-- A mutex that has not been acquired has no owner. -/
theorem Inv.owner_eq_none (hs : Inv s) (h : s.m_count = 0) : s.m_owner = none := by
  refine Option.eq_none_iff_forall_ne_some.mpr fun j hj => ?_
  have hpos := ((hs.here j).owner.mp hj).1
  rw [← (hs.here j).count hj, h] at hpos
  exact hpos.ne rfl

omit [DecidableEq ι] in
/-- One more fits into the word. -/
theorem toNat_add_one {m_count : UInt32} (hcount : m_count.toNat = depth)
    (hroom : depth + 1 < 2 ^ 32) : (m_count + 1).toNat = depth + 1 := by
  rw [UInt32.toNat_add, hcount]
  exact Nat.mod_eq_of_lt hroom

/-- The first acquisition: the new owner has `m_internal`, and has yet to take `m_lock`. -/
theorem inv_obtain {m_count : UInt32} (hs : Inv s) (hold : s.threads i = old) (hi : i ∉ s.m_cond)
    (hcount : s.m_count = 0) (hholds : old.HoldsInternal ∧ pc.HoldsInternal)
    (hhas : ¬old.HasLock) (hpc : pc.Taking ∧ ¬pc.HasLock ∧ ¬pc.Away)
    (hdepth : m_count.toNat = depth) (hpos : 0 < depth) (hknows : pc.Knows depth (some i)) :
    Inv (s.obtain i m_count depth pc) := by
  have hhere := hs.here_of hold
  have hnone := hs.owner_eq_none hcount
  refine hs.of_goto rfl rfl (fun _ _ => Iff.rfl) (fun _ _ => Iff.rfl) (fun j hj => ?_)
    (.inr (hhere.internal.mpr hholds.1)) (fun j _ hj => ?_) nofun
    ⟨?_, ?_, ?_, fun _ => hdepth, hknows⟩ (hs.parked_update hi)
  · rw [hnone]
    exact some_iff_of_ne hj
  · cases hnone.symm.trans hj
  · exact hhere.internal.trans (iff_of_true hholds.1 hholds.2)
  · exact iff_of_true rfl ⟨hpos, hpc.2.2⟩
  · refine hhere.lock.trans (iff_of_false ?_ fun h => h.elim (fun h => h.2 hpc.1) hpc.2.1)
    rw [hnone]
    exact fun h => h.elim (fun h => nomatch h.1) hhas

/-- The owner acquires the mutex once more. -/
theorem inv_obtain_again (hs : Inv s) (hold : s.threads i = old) (hi : i ∉ s.m_cond)
    (howner : s.m_owner = some i) (hholds : old.HoldsInternal ∧ pc.HoldsInternal)
    (hold' : ¬old.Taking ∧ ¬old.HasLock) (hpc : ¬pc.Taking ∧ ¬pc.HasLock ∧ ¬pc.Away)
    (hroom : s.depth i + 1 < 2 ^ 32) (hknows : pc.Knows (s.depth i + 1) (some i)) :
    Inv (s.obtain i (s.m_count + 1) (s.depth i + 1) pc) := by
  have hhere := hs.here_of hold
  refine hs.of_goto rfl rfl (fun _ _ => Iff.rfl) (fun _ _ => Iff.rfl) (fun j hj => ?_)
    (.inr (hhere.internal.mpr hholds.1)) (fun j hj hjo => ?_) nofun
    ⟨?_, ?_, ?_, fun _ => ?_, hknows⟩ (hs.parked_update hi)
  · rw [howner]
    exact Iff.rfl
  · exact absurd (Option.some.inj (hjo.symm.trans howner)) hj
  · exact hhere.internal.trans (iff_of_true hholds.1 hholds.2)
  · exact iff_of_true rfl ⟨Nat.succ_pos _, hpc.2.2⟩
  · exact hhere.lock.trans (iff_of_true (.inl ⟨howner, hold'.1⟩) (.inl ⟨rfl, hpc.1⟩))
  · exact toNat_add_one (hhere.count howner) hroom

/-- The owner gives the mutex up, with both locks still its own. -/
theorem inv_disown (hs : Inv s) (hold : s.threads i = old) (hi : i ∉ s.m_cond)
    (howner : s.m_owner = some i) (hholds : old.HoldsInternal ∧ pc.HoldsInternal)
    (htaking : ¬old.Taking) (hhas : pc.HasLock) (haway : depth = 0 ∨ pc.Away)
    (hknows : pc.Knows depth none) :
    Inv { s.goto i pc with m_count := 0, m_owner := none, depth := update s.depth i depth } := by
  have hhere := hs.here_of hold
  refine hs.of_goto rfl rfl (fun _ _ => Iff.rfl) (fun _ _ => Iff.rfl) (fun j hj => ?_)
    (.inr (hhere.internal.mpr hholds.1)) (fun j hj hjo => ?_) (fun _ => rfl)
    ⟨?_, ?_, ?_, nofun, hknows⟩ (hs.parked_update hi)
  · rw [howner]
    exact (some_iff_of_ne hj).symm
  · exact absurd (Option.some.inj (hjo.symm.trans howner)) hj
  · exact hhere.internal.trans (iff_of_true hholds.1 hholds.2)
  · exact iff_of_false nofun fun h => haway.elim h.1.ne' h.2
  · exact hhere.lock.trans (iff_of_true (.inl ⟨howner, htaking⟩) (.inr hhas))

/-- The decision of `lock_internal`. -/
theorem inv_lockCheck (hs : Inv s) {count : UInt32} {wait : Bool}
    (hold : s.threads i = .lockCheck count wait)
    (h : s.stepThread i (.lockCheck count wait) = some s') : Inv s' := by
  have hhere := hs.here_of hold
  have hi := hs.not_mem hold nofun
  have hknows := hhere.knows
  rw [stepThread] at h
  split at h
  · rename_i hcount
    obtain rfl := Option.some.inj h
    cases wait with
    | true =>
      obtain ⟨hdepth, hpos⟩ : count.toNat = s.depth i ∧ 0 < s.depth i := hknows
      exact inv_obtain hs hold hi hcount ⟨trivial, trivial⟩ id ⟨trivial, id, id⟩ hdepth hpos
        ⟨hpos, nofun⟩
    | false =>
      obtain rfl : count = 1 := hknows.1
      have hzero : s.depth i = 0 := by
        by_contra hne
        have howner := hhere.owner.mpr ⟨Nat.pos_of_ne_zero hne, nofun⟩
        rw [hs.owner_eq_none hcount] at howner
        cases howner
      simp only [hzero, Bool.false_eq_true, if_false, Nat.zero_add]
      exact inv_obtain hs hold hi hcount ⟨trivial, trivial⟩ id ⟨trivial, id, id⟩ rfl Nat.one_pos
        ⟨Nat.one_pos, fun _ => rfl⟩
  · split at h
    · rename_i howner
      obtain rfl := Option.some.inj h
      cases wait with
      | true => exact absurd rfl (hhere.owner.mp howner).2
      | false =>
        obtain ⟨rfl, hroom⟩ : count = 1 ∧ s.depth i + 1 < 2 ^ 32 := hknows
        have hpos := (hhere.owner.mp howner).1
        exact inv_obtain_again hs hold hi howner ⟨trivial, trivial⟩ ⟨id, id⟩ ⟨id, id, id⟩ hroom
          ⟨Nat.succ_pos _, fun _ => iff_of_false nofun (by omega)⟩
    · rename_i howner
      obtain rfl := Option.some.inj h
      refine inv_goto hs hold hi Iff.rfl Iff.rfl Iff.rfl Iff.rfl ?_
      cases wait with
      | true => exact hknows
      | false =>
        refine ⟨hknows.1, ?_⟩
        by_contra hne
        exact howner (hhere.owner.mpr ⟨Nat.pos_of_ne_zero hne, nofun⟩)

/-- The decision of `trylock_internal`. -/
theorem inv_tryCheck (hs : Inv s) (hold : s.threads i = .tryCheck)
    (h : s.stepThread i .tryCheck = some s') : Inv s' := by
  have hhere := hs.here_of hold
  have hi := hs.not_mem hold nofun
  have howner_iff : s.m_owner = some i ↔ 0 < s.depth i := hhere.owner.trans (and_iff_left id)
  rw [stepThread] at h
  split at h
  · rename_i hcount
    obtain rfl := Option.some.inj h
    have hzero : s.depth i = 0 := by
      by_contra hne
      have howner := howner_iff.mpr (Nat.pos_of_ne_zero hne)
      rw [hs.owner_eq_none hcount] at howner
      cases howner
    rw [hzero]
    exact inv_obtain hs hold hi hcount ⟨trivial, trivial⟩ id ⟨trivial, id, id⟩ rfl Nat.one_pos rfl
  · split at h
    · rename_i howner
      obtain rfl := Option.some.inj h
      exact inv_obtain_again hs hold hi howner ⟨trivial, trivial⟩ ⟨id, id⟩ ⟨id, id, id⟩
        hhere.knows (iff_of_true rfl (Nat.succ_pos _))
    · rename_i howner
      obtain rfl := Option.some.inj h
      exact inv_goto hs hold hi Iff.rfl Iff.rfl Iff.rfl Iff.rfl
        (iff_of_false nofun fun hpos => howner (howner_iff.mpr hpos))

/-- The decision of `unlock_internal`. -/
theorem inv_unlockCheck (hs : Inv s) (hold : s.threads i = .unlockCheck)
    (h : s.stepThread i .unlockCheck = some s') : Inv s' := by
  have hhere := hs.here_of hold
  have hi := hs.not_mem hold nofun
  have hpos : 0 < s.depth i := hhere.knows
  have howner := hhere.owner.mpr ⟨hpos, id⟩
  have hcount : (s.m_count - 1).toNat = s.depth i - 1 := by
    rw [← hhere.count howner] at hpos ⊢
    exact UInt32.toNat_sub_of_le s.m_count 1 hpos
  have hlast_iff : s.m_count - 1 = 0 ↔ s.depth i - 1 = 0 := by
    rw [← hcount]
    exact UInt32.toNat_inj.symm
  rw [stepThread] at h
  split at h
  · rename_i hlast
    obtain rfl := Option.some.inj h
    have hzero := hlast_iff.mp hlast
    rw [hlast, hzero]
    exact inv_disown hs hold hi howner ⟨trivial, trivial⟩ id trivial (.inl rfl) rfl
  · rename_i hmore
    obtain rfl := Option.some.inj h
    rw [hlast_iff] at hmore
    refine hs.of_goto rfl rfl (fun _ _ => Iff.rfl) (fun _ _ => Iff.rfl) (fun _ _ => Iff.rfl)
      (.inl rfl) (fun j hj hjo => ?_) (fun h => ?_) ⟨hhere.internal, ?_, ?_, fun _ => ?_, ?_⟩
      (hs.parked_update hi)
    · exact absurd (Option.some.inj (hjo.symm.trans howner)) hj
    · cases howner.symm.trans h
    · exact iff_of_true howner ⟨Nat.pos_of_ne_zero hmore, id⟩
    · exact hhere.lock
    · exact hcount
    · exact iff_of_false nofun hmore

/-- `reset_for_condvar` leaves `m_lock` to the wait. -/
theorem inv_resetClear (hs : Inv s) (hold : s.threads i = .resetClear) :
    Inv { s.goto i (.resetLeave s.m_count) with m_count := 0, m_owner := none } := by
  have hhere := hs.here_of hold
  have hpos : 0 < s.depth i := hhere.knows
  have howner := hhere.owner.mpr ⟨hpos, id⟩
  have hinv : Inv { s.goto i (.resetLeave s.m_count) with
      m_count := 0, m_owner := none, depth := update s.depth i (s.depth i) } :=
    inv_disown hs hold (hs.not_mem hold nofun) howner ⟨trivial, trivial⟩ id trivial (.inr trivial)
      ⟨hhere.count howner, hpos⟩
  rwa [update_eq_self] at hinv

/-- `pthread_cond_wait` releases `m_lock` and blocks. -/
theorem inv_waitEnter (hs : Inv s) {count : UInt32} (hold : s.threads i = .waitEnter count) :
    Inv { s.unlockLock i (.waitParked count) with m_cond := insert i s.m_cond } := by
  have hmove : Inv (s.unlockLock i (.waitParked count)) :=
    inv_unlockLock hs hold (hs.not_mem hold nofun) Iff.rfl trivial id (fun _ => .inr trivial)
      Iff.rfl id
  refine ⟨hmove.here, hmove.count, fun j hj => ?_⟩
  rcases Finset.mem_insert.mp hj with rfl | hj
  · exact ⟨count, update_self j _ _⟩
  · exact hmove.parked j hj

/-- `get_owner` reads the owner, also of a free mutex. -/
theorem inv_ownerRead (hs : Inv s) (hold : s.threads i = .ownerRead) :
    Inv (s.goto i (.ownerLeave (if 0 < s.m_count then s.m_owner else none))) := by
  refine inv_goto hs hold (hs.not_mem hold nofun) Iff.rfl Iff.rfl Iff.rfl Iff.rfl ?_
  rw [Pc.Knows]
  split
  · rfl
  · rename_i hzero
    exact (hs.owner_eq_none (UInt32.le_zero_iff.mp (UInt32.not_lt.mp hzero))).symm

/-- A call begins. -/
theorem inv_call (hs : Inv s) {op : Op} (hok : s.Shallow (.call i op)) (hold : s.threads i = .idle)
    (h : op.start (s.depth i) = some pc) : Inv (s.goto i pc) := by
  have hi := hs.not_mem hold nofun
  cases op with
  | lock =>
    obtain rfl := Option.some.inj h
    exact inv_goto hs hold hi Iff.rfl Iff.rfl Iff.rfl (iff_of_false nofun id) ⟨rfl, hok i rfl⟩
  | trylock =>
    obtain rfl := Option.some.inj h
    exact inv_goto hs hold hi Iff.rfl Iff.rfl Iff.rfl Iff.rfl (hok i rfl)
  | get_owner =>
    obtain rfl := Option.some.inj h
    exact inv_goto hs hold hi Iff.rfl Iff.rfl Iff.rfl Iff.rfl trivial
  | unlock | wait =>
    rw [Op.start] at h
    split at h
    · rename_i hpos
      obtain rfl := Option.some.inj h
      exact inv_goto hs hold hi Iff.rfl Iff.rfl Iff.rfl Iff.rfl hpos
    · cases h

/-- Every step of a thread keeps the invariant. -/
theorem inv_stepThread (hs : Inv s) (hold : s.threads i = old)
    (h : s.stepThread i old = some s') : Inv s' := by
  have hhere := hs.here_of hold
  cases old with
  | idle => cases h
  | lockEnter count wait =>
    exact inv_lockInternal hs hold (hs.not_mem hold nofun) h trivial Iff.rfl Iff.rfl Iff.rfl id
  | ownerEnter =>
    exact inv_lockInternal hs hold (hs.not_mem hold nofun) h trivial Iff.rfl Iff.rfl Iff.rfl
      fun _ => trivial
  | tryEnter | unlockEnter | resetEnter =>
    exact inv_lockInternal hs hold (hs.not_mem hold nofun) h trivial Iff.rfl Iff.rfl Iff.rfl id
  | lockCheck count wait => exact inv_lockCheck hs hold h
  | tryCheck => exact inv_tryCheck hs hold h
  | unlockCheck => exact inv_unlockCheck hs hold h
  | lockTake wait =>
    have howner := hhere.owner.mpr ⟨hhere.knows.1, id⟩
    exact inv_lockLock hs hold (hs.not_mem hold nofun) h Iff.rfl (.inl ⟨howner, id⟩) Iff.rfl
      fun hk => ⟨hk.1, fun hw => iff_of_true rfl (hk.2 hw)⟩
  | tryTake =>
    have hone : s.depth i = 1 := hhere.knows
    have howner := hhere.owner.mpr ⟨hone ▸ Nat.one_pos, id⟩
    exact inv_lockLock hs hold (hs.not_mem hold nofun) h Iff.rfl (.inl ⟨howner, id⟩) Iff.rfl
      fun _ => iff_of_true rfl (hone ▸ Nat.one_pos)
  | lockWait count wait =>
    exact inv_lockLock hs hold (hs.not_mem hold nofun) h Iff.rfl (.inr trivial) Iff.rfl id
  | waitParked count =>
    rw [stepThread] at h
    split at h
    · cases h
    · rename_i hi
      exact inv_lockLock hs hold hi h Iff.rfl (.inr trivial) Iff.rfl id
  | lockMiss count wait =>
    obtain rfl := Option.some.inj h
    exact inv_unlockInternal hs hold (hs.not_mem hold nofun) trivial id Iff.rfl Iff.rfl Iff.rfl id
  | lockLeave rc wait | tryLeave obtained | unlockLeave rc | ownerLeave id' =>
    obtain rfl := Option.some.inj h
    exact inv_unlockInternal hs hold (hs.not_mem hold nofun) trivial id Iff.rfl Iff.rfl Iff.rfl
      fun _ => trivial
  | resetLeave count =>
    obtain rfl := Option.some.inj h
    exact inv_unlockInternal hs hold (hs.not_mem hold nofun) trivial id Iff.rfl Iff.rfl Iff.rfl id
  | lockPass count wait =>
    obtain rfl := Option.some.inj h
    cases wait with
    | true =>
      exact inv_unlockLock hs hold (hs.not_mem hold nofun) Iff.rfl trivial id (fun _ => .inr rfl)
        Iff.rfl id
    | false =>
      exact inv_unlockLock hs hold (hs.not_mem hold nofun) Iff.rfl trivial id (fun hk => .inl hk.2)
        Iff.rfl fun hk => ⟨hk.1, by rw [hk.2]; decide⟩
  | unlockRelease =>
    obtain rfl := Option.some.inj h
    exact inv_unlockLock hs hold (hs.not_mem hold nofun) Iff.rfl trivial id .inl Iff.rfl
      fun hk => iff_of_true rfl hk
  | resetClear =>
    obtain rfl := Option.some.inj h
    exact inv_resetClear hs hold
  | waitEnter count =>
    obtain rfl := Option.some.inj h
    exact inv_waitEnter hs hold
  | waitLeave count =>
    obtain rfl := Option.some.inj h
    exact inv_unlockLock hs hold (hs.not_mem hold nofun) Iff.rfl trivial id
      (fun _ => .inr trivial) (iff_of_true rfl trivial) id
  | ownerRead =>
    obtain rfl := Option.some.inj h
    exact inv_ownerRead hs hold

/-- **Every step keeps the invariant.** -/
theorem Inv.step (hs : Inv s) {a : Action ι} (hok : s.Shallow a) (h : s.step a = some s') :
    Inv s' := by
  cases a with
  | call i op =>
    rw [JTCRecursiveMutex.step] at h
    split at h
    · rename_i hold
      rw [Option.map_eq_some_iff] at h
      obtain ⟨pc, hstart, rfl⟩ := h
      exact inv_call hs hok hold hstart
    · cases h
  | go i => exact inv_stepThread hs rfl h
  | wakeup i =>
    rw [JTCRecursiveMutex.step] at h
    split at h
    · obtain rfl := Option.some.inj h
      exact ⟨hs.here, hs.count, fun j hj => hs.parked j (Finset.mem_of_mem_erase hj)⟩
    · cases h

theorem inv_of_run {as : List (Action ι)} (hok : AllSteps step Shallow init as)
    (hrun : run step init as = some s) : Inv s :=
  run_invariant (fun _ _ _ hs => hs.step) inv_init hok hrun

/-- Thread `i` has locked the mutex and is not in a wait. -/
def Owns (s : JTCRecursiveMutex ι) (i : ι) : Prop := 0 < s.depth i ∧ ¬(s.threads i).Away

/-- **One owner, whatever the waits do.**  After any steps of any number of threads, at most one of
those that have locked the mutex is not in a wait.  It is `m_owner`, and the count is the number of
its own locks, so a wait has given back what it took; between two calls it has `m_lock`.  A call
returns whether it was the first lock or the last unlock, whether it has got the mutex, or who owns
it, if anybody does. -/
theorem owner_of_run {as : List (Action ι)} (hok : AllSteps step Shallow init as)
    (hrun : run step init as = some s) :
    (∀ i j, s.Owns i → s.Owns j → i = j) ∧
      (∀ i, s.m_owner = some i ↔ s.Owns i) ∧
      (∀ i, s.Owns i → s.m_count.toNat = s.depth i) ∧
      ((∀ i, ¬s.Owns i) → s.m_count = 0) ∧
      (∀ i, s.threads i = .idle → 0 < s.depth i → s.m_lock = some i) ∧
      (∀ i rc, s.threads i = .lockLeave rc false → (rc = true ↔ s.depth i = 1)) ∧
      (∀ i rc, s.threads i = .unlockLeave rc → (rc = true ↔ s.depth i = 0)) ∧
      (∀ i obtained, s.threads i = .tryLeave obtained → (obtained = true ↔ 0 < s.depth i)) ∧
      ∀ i id, s.threads i = .ownerLeave id → ∀ j, id = some j ↔ s.Owns j := by
  have hs := inv_of_run hok hrun
  have howner : ∀ i, s.m_owner = some i ↔ s.Owns i := fun i => (hs.here i).owner
  have hknows : ∀ i pc, s.threads i = pc → pc.Knows (s.depth i) s.m_owner := by
    rintro i _ rfl
    exact (hs.here i).knows
  refine ⟨fun i j hi hj => ?_, howner, fun i hi => ?_, fun hnone => ?_, fun i hi hpos => ?_,
    fun i rc hi => ?_, fun i rc hi => ?_, fun i obtained hi => ?_, fun i id hi j => ?_⟩
  · exact Option.some.inj (((howner i).mpr hi).symm.trans ((howner j).mpr hj))
  · exact (hs.here i).count ((howner i).mpr hi)
  · refine hs.count (Option.eq_none_iff_forall_ne_some.mpr fun i hi => ?_)
    exact hnone i ((howner i).mp hi)
  · have hown : s.m_owner = some i := (howner i).mpr ⟨hpos, by rw [hi]; exact not_false⟩
    refine (hs.here i).lock.mpr (.inl ⟨hown, ?_⟩)
    rw [hi]
    exact not_false
  · exact (hknows i _ hi).2 rfl
  · exact hknows i _ hi
  · exact hknows i _ hi
  · obtain rfl : id = s.m_owner := hknows i _ hi
    exact howner j

/-- A thread locks the mutex twice and waits; another one locks and unlocks it meanwhile, and asks
for the owner at the end. -/
def waitSchedule : List (Action ℕ) :=
  [.call 0 .lock, .go 0, .go 0, .go 0, .go 0, .call 0 .lock, .go 0, .go 0, .go 0,
    .call 0 .wait, .go 0, .go 0, .go 0, .go 0, .call 1 .lock, .go 1, .go 1, .go 1, .go 1,
    .wakeup 0, .call 1 .unlock, .go 1, .go 1, .go 1, .go 1, .go 0, .go 0, .go 0, .go 0,
    .go 0, .go 0, .call 1 .get_owner, .go 1, .go 1]

/-- The owner has its two locks back after the wait. -/
theorem owner_of_run_wait :
    ∃ s : JTCRecursiveMutex ℕ, run step init waitSchedule = some s ∧ s.depth 0 = 2 ∧
      s.m_owner = some 0 ∧ s.m_count = 2 ∧ s.threads 1 = .ownerLeave (some 0) ∧
        ∀ j, s.Owns j → j = 0 := by
  obtain ⟨s, hs⟩ := Option.isSome_iff_exists.mp
    (show (run step (init : JTCRecursiveMutex ℕ) waitSchedule).isSome = true by decide +kernel)
  have hok : AllSteps step Shallow (init : JTCRecursiveMutex ℕ) waitSchedule := by decide +kernel
  have hend : ∀ s ∈ run step (init : JTCRecursiveMutex ℕ) waitSchedule,
      s.depth 0 = 2 ∧ s.threads 1 = .ownerLeave (some 0) := by decide +kernel
  obtain ⟨hdepth, hread⟩ := hend s hs
  obtain ⟨hunique, howner, hcount, -, -, -, -, -, hget⟩ := owner_of_run hok hs
  have hown : s.Owns 0 := (hget 1 _ hread 0).mp rfl
  refine ⟨s, hs, hdepth, (howner 0).mpr hown, ?_, hread, fun j hj => hunique j 0 hj hown⟩
  exact UInt32.toNat_inj.mp ((hcount 0 hown).trans hdepth)

/-! ## Progress -/

/-- A thread has `m_internal` only for a moment: it can go on, unless it waits for `m_lock`. -/
theorem Inv.canStep_of_internal (hs : Inv s) (hi : s.m_internal = some i) :
    (s.step (.go i)).isSome ∨ (s.threads i).Taking := by
  have hholds := (hs.here i).internal.mp hi
  rw [JTCRecursiveMutex.step]
  generalize s.threads i = pc at hholds
  cases pc with
  | lockCheck count wait =>
    left
    rw [stepThread]
    split
    · rfl
    · split <;> rfl
  | tryCheck =>
    left
    rw [stepThread]
    split
    · rfl
    · split <;> rfl
  | unlockCheck =>
    left
    rw [stepThread]
    split <;> rfl
  | lockTake wait | tryTake => exact .inr trivial
  | _ => first | exact .inl rfl | exact hholds.elim

/-- Whoever has `m_lock` without owning the mutex can go on. -/
theorem canStep_of_hasLock (hi : (s.threads i).HasLock) : (s.step (.go i)).isSome := by
  rw [step]
  generalize s.threads i = pc at hi
  cases pc with
  | lockPass count wait | unlockRelease | resetLeave count | waitEnter count
  | waitLeave count => rfl
  | _ => exact hi.elim

/-- The two locks never block each other: a thread that is about to take `m_lock` with `m_internal`
in its hands finds `m_lock` free, or in the hands of a thread that can go on. -/
theorem Inv.internal_eq_none (hs : Inv s) (hstuck : ∀ i, ¬(s.step (.go i)).isSome) :
    s.m_internal = none := by
  refine Option.eq_none_iff_forall_ne_some.mpr fun i hi => ?_
  have htaking := (hs.canStep_of_internal hi).resolve_left (hstuck i)
  have hhere := hs.here i
  -- nobody has `m_lock`: its holder would own the mutex, as thread `i` does
  have howner : s.m_owner = some i := by
    rw [hhere.owner]
    have hknows := hhere.knows
    generalize s.threads i = pc at htaking hknows
    cases pc with
    | lockTake wait => exact ⟨hknows.1, id⟩
    | tryTake => exact ⟨(show s.depth i = 1 from hknows) ▸ Nat.one_pos, id⟩
    | _ => exact htaking.elim
  have hfree : s.m_lock = none := by
    refine Option.eq_none_iff_forall_ne_some.mpr fun j hj => ?_
    rcases (hs.here j).lock.mp hj with ⟨hown, hnot⟩ | hhas
    · obtain rfl := Option.some.inj (hown.symm.trans howner)
      exact hnot htaking
    · exact hstuck j (canStep_of_hasLock hhas)
  apply hstuck i
  rw [JTCRecursiveMutex.step]
  generalize s.threads i = pc at htaking
  cases pc with
  | lockTake wait | tryTake => simp [stepThread, lockLock, hfree]
  | _ => exact htaking.elim

/-- **No deadlock.**  After any steps of any number of threads, if nobody can go on without a new
call, then every thread is between two calls, or blocked in the condition, or waits for `m_lock`,
which is in the hands of an owner between two calls. -/
theorem no_deadlock {as : List (Action ι)} (hok : AllSteps step Shallow init as)
    (hrun : run step init as = some s) (hstuck : ∀ i, ¬(s.step (.go i)).isSome) (i : ι) :
    s.threads i = .idle ∨ i ∈ s.m_cond ∨
      ∃ j, s.threads j = .idle ∧ 0 < s.depth j ∧ s.m_owner = some j ∧ s.m_lock = some j := by
  have hs := inv_of_run hok hrun
  have hinternal := hs.internal_eq_none hstuck
  have hcases : ∀ j, s.threads j = .idle ∨ j ∈ s.m_cond ∨
      s.m_lock ≠ none ∧ ((s.threads j).Away ∨ s.depth j = 0) := by
    intro j
    have hhere := hs.here j
    have hgo := hstuck j
    have hholds : ¬(s.threads j).HoldsInternal := by
      rw [← hhere.internal, hinternal]
      exact nofun
    have hhas : ¬(s.threads j).HasLock := fun h => hgo (canStep_of_hasLock h)
    have hknows := hhere.knows
    rw [JTCRecursiveMutex.step] at hgo
    generalize s.threads j = pc at hgo hholds hhas hknows
    cases pc with
    | idle => exact .inl rfl
    | lockWait count wait =>
      refine .inr (.inr ⟨fun hfree => hgo (by simp [stepThread, lockLock, hfree]), ?_⟩)
      cases wait with
      | true => exact .inl rfl
      | false => exact .inr hknows.2
    | waitParked count =>
      refine .inr (or_iff_not_imp_left.mpr fun hcond => ⟨fun hfree => hgo ?_, .inl trivial⟩)
      simp [stepThread, lockLock, hcond, hfree]
    | lockEnter count wait => exact absurd (by simp [stepThread, lockInternal, hinternal]) hgo
    | tryEnter | unlockEnter | resetEnter | ownerEnter =>
      exact absurd (by simp [stepThread, lockInternal, hinternal]) hgo
    | lockPass count wait | waitEnter count | waitLeave count => exact absurd trivial hhas
    | _ => exact absurd trivial hholds
  rcases hcases i with hi | hi | ⟨hlock, -⟩
  · exact .inl hi
  · exact .inr (.inl hi)
  · obtain ⟨j, hj⟩ := Option.ne_none_iff_exists'.mp hlock
    have hown : s.m_owner = some j := by
      rcases (hs.here j).lock.mp hj with ⟨hown, -⟩ | hhas
      · exact hown
      · exact absurd (canStep_of_hasLock hhas) (hstuck j)
    obtain ⟨hpos, haway⟩ := (hs.here j).owner.mp hown
    rcases hcases j with hidle | hcond | ⟨-, h | h⟩
    · exact .inr (.inr ⟨j, hidle, hpos, hown, hj⟩)
    · obtain ⟨count, hparked⟩ := hs.parked j hcond
      rw [hparked] at haway
      exact absurd trivial haway
    · exact absurd h haway
    · exact absurd h hpos.ne'

/-- A thread waits for the owner. -/
theorem no_deadlock_two :
    ∃ s : JTCRecursiveMutex (Fin 2), run step init
        [.call 0 .lock, .go 0, .go 0, .go 0, .go 0, .call 1 .lock, .go 1, .go 1, .go 1] = some s ∧
      s.threads 1 ≠ .idle ∧
        ∃ j, s.threads j = .idle ∧ 0 < s.depth j ∧ s.m_owner = some j ∧ s.m_lock = some j := by
  obtain ⟨s, hs⟩ := Option.isSome_iff_exists.mp (show (run step
    (init : JTCRecursiveMutex (Fin 2)) [.call 0 .lock, .go 0, .go 0, .go 0, .go 0, .call 1 .lock,
      .go 1, .go 1, .go 1]).isSome = true by decide)
  have hok : AllSteps step Shallow (init : JTCRecursiveMutex (Fin 2))
      [.call 0 .lock, .go 0, .go 0, .go 0, .go 0, .call 1 .lock, .go 1, .go 1, .go 1] := by
    decide +kernel
  have hend : ∀ s ∈ run step (init : JTCRecursiveMutex (Fin 2))
      [.call 0 .lock, .go 0, .go 0, .go 0, .go 0, .call 1 .lock, .go 1, .go 1, .go 1],
      s.threads 1 ≠ .idle ∧ 1 ∉ s.m_cond ∧ ∀ i, ¬(s.step (.go i)).isSome := by decide
  obtain ⟨hbusy, hcond, hstuck⟩ := hend s hs
  exact ⟨s, hs, hbusy, ((no_deadlock hok hs hstuck 1).resolve_left hbusy).resolve_left hcond⟩

end JTCRecursiveMutex

end CppCore.Pal
