import CppCore.Lib.Run
import CppCore.Lib.Guarded
import Mathlib.Data.Finset.Basic
import Mathlib.Tactic.ByContra

/-!
# The reader and writer mutex

`JTCRWMutex` lets any number of readers in, or one writer.  Its two fields are behind a mutex of
their own, and there is a condition variable for the threads that want to read and one for those
that want to write.  `unlock` decides whom to wake with the mutex, and wakes them after releasing
it, so other calls can fall in between.

A system is a place for each of any number of threads.  Taking and releasing `m_mutex`, every
access to a field, entering a wait, being woken by a signal and waking without one are steps of
their own.  A thread holds the lock at most once, and calls `unlock` only when it does: one that
holds it does not lock it again, as reader or as writer.

## Main definitions

* `Pc`, `JTCRWMutex` — where the threads are, and what they share.
* `step` — one step of one thread.
* `Inv` — the invariant, `Inv.step` — every step keeps it.
* `counts_of_run` — readers and writers exclude each other, and `m_count` says who is in.
* `no_lost_wakeup` — no wakeup is lost: if nobody can go on, somebody still holds the lock.
* `no_overtaking` — no reader gets in before a writer that was there first.
-/

namespace CppCore.Pal

open Lib Function

/-! ## The threads -/

/-- How a thread holds the lock. -/
inductive Mode
  | read
  | write
  deriving DecidableEq, Repr

namespace RWMutex

/-- Where a thread is. -/
inductive Pc
  /-- Between two calls, without the lock. -/
  | idle
  /-- Between two calls, with the lock. -/
  | holding (mode : Mode)
  /-- `read_lock_internal`: the lock of `m_mutex`. -/
  | readLock
  /-- `while (m_count < 0 || m_waiting_writers != 0)`, with `m_mutex`. -/
  | readCheck
  /-- The call of `m_ok_to_read.wait(m_mutex)`, with `m_mutex`. -/
  | readWait
  /-- In the wait, until it is notified and has `m_mutex` again. -/
  | readParked
  /-- `m_count++`, with `m_mutex`. -/
  | readEnter
  /-- The end of `read_lock_internal`, with `m_mutex`. -/
  | readLeave
  /-- `write_lock_internal`: the lock of `m_mutex`. -/
  | writeLock
  /-- `while (m_count != 0)`, with `m_mutex`. -/
  | writeCheck
  /-- `m_waiting_writers++`, with `m_mutex`. -/
  | writeAnnounce
  /-- The call of `m_ok_to_write.wait(m_mutex)`, with `m_mutex`. -/
  | writeWait
  /-- In the wait, until it is notified and has `m_mutex` again. -/
  | writeParked
  /-- `m_waiting_writers--`, with `m_mutex`. -/
  | writeRetract
  /-- `m_count = -1`, with `m_mutex`. -/
  | writeEnter
  /-- The end of `write_lock_internal`, with `m_mutex`. -/
  | writeLeave
  /-- `unlock_internal`: the lock of `m_mutex`. -/
  | unlockLock (mode : Mode)
  /-- `assert(m_count != 0)` and the new `m_count`, with `m_mutex`. -/
  | unlockCount (mode : Mode)
  /-- `ww` and `wr`, with `m_mutex`. -/
  | unlockDecide
  /-- The end of the block, with `m_mutex`. -/
  | unlockLeave (ww wr : Bool)
  /-- `if (ww) … else if (wr) …`. -/
  | wake (ww wr : Bool)
  /-- The assertion has failed. -/
  | aborted
  deriving DecidableEq, Repr

namespace Pc

/-- The thread has `m_mutex`. -/
def Holds : Pc → Prop
  | readCheck | readWait | readEnter | readLeave | writeCheck | writeAnnounce | writeWait => True
  | writeRetract | writeEnter | writeLeave | unlockCount _ | unlockDecide | unlockLeave _ _ => True
  | aborted => True
  | _ => False

/-- What the thread has seen of `m_count` and `m_waiting_writers`. -/
def Knows : Pc → ℤ × ℕ → Prop
  | readWait, (m_count, m_waiting_writers) => m_count < 0 ∨ m_waiting_writers ≠ 0
  | readEnter, (m_count, _) => 0 ≤ m_count
  | writeAnnounce, (m_count, _) | writeWait, (m_count, _) => m_count ≠ 0
  | writeEnter, (m_count, _) => m_count = 0
  | _, _ => True

theorem knows_of_not_holds (pc : Pc) (d : ℤ × ℕ) (h : ¬pc.Holds) : pc.Knows d := by
  cases pc <;> first | trivial | exact absurd trivial h

/-- The thread is counted in `m_count` as one that holds the lock in a mode. -/
def Has (mode : Mode) : Pc → Prop
  | readLeave => mode = .read
  | writeLeave => mode = .write
  | holding m | unlockLock m | unlockCount m => mode = m
  | _ => False

/-- The thread is counted in `m_waiting_writers`. -/
def Announced : Pc → Prop
  | writeWait | writeParked | writeRetract => True
  | _ => False

/-- The thread has found no writer that it should wait for, and has not given the lock back. -/
def Reads : Pc → Prop
  | readEnter | readLeave => True
  | holding mode | unlockLock mode | unlockCount mode => mode = .read
  | _ => False

/-- The thread has come to `write_lock` and not got the lock. -/
def WaitsToWrite : Pc → Prop
  | writeCheck | writeAnnounce | writeWait | writeParked | writeRetract | writeEnter => True
  | _ => False

instance WaitsToWrite.decidable : DecidablePred WaitsToWrite
  | writeCheck | writeAnnounce | writeWait | writeParked | writeRetract | writeEnter =>
    isTrue trivial
  | idle | holding _ | readLock | readCheck | readWait | readParked | readEnter | readLeave =>
    isFalse id
  | writeLock | writeLeave | unlockLock _ | unlockCount _ | unlockDecide | unlockLeave _ _ =>
    isFalse id
  | wake _ _ | aborted => isFalse id

/-- The thread is about to signal a writer, or is a writer about to look at `m_count`. -/
def WakesWriter : Pc → Prop
  | writeRetract | writeCheck | writeEnter | unlockDecide => True
  | unlockLeave ww _ | wake ww _ => ww = true
  | _ => False

/-- The thread is about to wake the readers, or is a writer that will keep them out. -/
def WakesReaders : Pc → Prop
  | writeCheck | writeAnnounce | writeEnter | unlockDecide => True
  | unlockLeave ww wr | wake ww wr => ww = false ∧ wr = true
  | _ => False

end Pc

/-- The calls. -/
inductive Op
  | read_lock
  | write_lock
  | unlock
  deriving DecidableEq, Repr

/-- Where a call begins, if the thread may make it. -/
def Op.start : Op → Pc → Option Pc
  | read_lock, .idle => some .readLock
  | write_lock, .idle => some .writeLock
  | unlock, .holding mode => some (.unlockLock mode)
  | _, _ => none

/-- What can happen next. -/
inductive Action (ι : Type)
  /-- A thread calls the lock. -/
  | call (i : ι) (op : Op)
  /-- A thread goes on. -/
  | go (i : ι)
  /-- `m_ok_to_write.signal()` of thread `i` wakes thread `j`. -/
  | signal (i j : ι)
  /-- A wait ends without a signal. -/
  | wakeup (i : ι)
  deriving DecidableEq, Repr

end RWMutex

open RWMutex

/-- What the threads share, and where they are. -/
structure JTCRWMutex (ι : Type) where
  /-- The number of readers that hold the lock, or -1 for a writer. -/
  m_count : ℤ
  /-- The number of writers that wait. -/
  m_waiting_writers : ℕ
  /-- Who has `m_mutex`. -/
  m_mutex : Option ι
  /-- Who is blocked in `m_ok_to_read`. -/
  m_ok_to_read : Finset ι
  /-- Who is blocked in `m_ok_to_write`. -/
  m_ok_to_write : Finset ι
  /-- The threads. -/
  threads : ι → Pc

namespace JTCRWMutex

variable {ι : Type}

/-- A free lock, and no call in progress. -/
def init : JTCRWMutex ι := ⟨0, 0, none, ∅, ∅, fun _ => .idle⟩

section Step

variable [DecidableEq ι]

/-- Thread `i` goes on at `pc`. -/
def goto (s : JTCRWMutex ι) (i : ι) (pc : Pc) : JTCRWMutex ι :=
  { s with threads := update s.threads i pc }

/-- Thread `i` takes `m_mutex` and goes on at `pc`. -/
def acquire (s : JTCRWMutex ι) (i : ι) (pc : Pc) : Option (JTCRWMutex ι) :=
  if s.m_mutex = none then some { s.goto i pc with m_mutex := some i } else none

/-- Thread `i` releases `m_mutex` and goes on at `pc`. -/
def release (s : JTCRWMutex ι) (i : ι) (pc : Pc) : JTCRWMutex ι :=
  { s.goto i pc with m_mutex := none }

/-- A step of thread `i`, which is at the given place. -/
def stepThread (s : JTCRWMutex ι) (i : ι) : Pc → Option (JTCRWMutex ι)
  | .idle | .holding _ | .aborted => none
  | .readLock => s.acquire i .readCheck
  | .readCheck =>
    some (s.goto i (if s.m_count < 0 ∨ s.m_waiting_writers ≠ 0 then .readWait else .readEnter))
  | .readWait => some { s.release i .readParked with m_ok_to_read := insert i s.m_ok_to_read }
  | .readParked => if i ∈ s.m_ok_to_read then none else s.acquire i .readCheck
  | .readEnter => some { s.goto i .readLeave with m_count := s.m_count + 1 }
  | .readLeave => some (s.release i (.holding .read))
  | .writeLock => s.acquire i .writeCheck
  | .writeCheck => some (s.goto i (if s.m_count ≠ 0 then .writeAnnounce else .writeEnter))
  | .writeAnnounce =>
    some { s.goto i .writeWait with m_waiting_writers := s.m_waiting_writers + 1 }
  | .writeWait => some { s.release i .writeParked with m_ok_to_write := insert i s.m_ok_to_write }
  | .writeParked => if i ∈ s.m_ok_to_write then none else s.acquire i .writeRetract
  | .writeRetract =>
    some { s.goto i .writeCheck with m_waiting_writers := s.m_waiting_writers - 1 }
  | .writeEnter => some { s.goto i .writeLeave with m_count := -1 }
  | .writeLeave => some (s.release i (.holding .write))
  | .unlockLock mode => s.acquire i (.unlockCount mode)
  | .unlockCount _ =>
    if s.m_count = 0 then some (s.goto i .aborted)
    else
      some { s.goto i .unlockDecide with
        m_count := if s.m_count < 0 then 0 else s.m_count - 1 }
  | .unlockDecide =>
    some (s.goto i (.unlockLeave (decide (s.m_waiting_writers ≠ 0 ∧ s.m_count = 0))
      (decide (s.m_waiting_writers = 0))))
  | .unlockLeave ww wr => some (s.release i (.wake ww wr))
  | .wake ww wr =>
    if ww then if s.m_ok_to_write = ∅ then some (s.goto i .idle) else none
    else if wr then some { s.goto i .idle with m_ok_to_read := ∅ }
    else some (s.goto i .idle)

/-- One step.  A signal wakes one of the threads that are blocked, whichever. -/
def step (s : JTCRWMutex ι) : Action ι → Option (JTCRWMutex ι)
  | .call i op => (op.start (s.threads i)).map fun pc => s.goto i pc
  | .go i => s.stepThread i (s.threads i)
  | .signal i j =>
    match s.threads i with
    | .wake true _ =>
      if j ∈ s.m_ok_to_write then
        some { s.goto i .idle with m_ok_to_write := s.m_ok_to_write.erase j }
      else none
    | _ => none
  | .wakeup i =>
    if i ∈ s.m_ok_to_read ∪ s.m_ok_to_write then
      some { s with
        m_ok_to_read := s.m_ok_to_read.erase i
        m_ok_to_write := s.m_ok_to_write.erase i }
    else none

end Step

/-! ## The invariant -/

/-- Thread `i` will see to it that a writer is woken: it is about to, or is one that is awake. -/
def WakesWriter (s : JTCRWMutex ι) (i : ι) (pc : Pc) : Prop :=
  pc.WakesWriter ∨ pc = .writeParked ∧ i ∉ s.m_ok_to_write

/-- What holds in every state of every run. -/
structure Inv (s : JTCRWMutex ι) : Prop where
  /-- The threads that need `m_mutex` have it, and what they have seen is still so. -/
  guarded : Guarded Pc.Holds Pc.Knows s.m_mutex s.threads (s.m_count, s.m_waiting_writers)
  count_ge : -1 ≤ s.m_count
  /-- A positive `m_count` is the number of readers. -/
  readers : number (Pc.Has .read) s.threads = s.m_count.toNat
  /-- A negative one is a writer. -/
  writers : number (Pc.Has .write) s.threads = (-s.m_count).toNat
  /-- `m_waiting_writers` is the number of writers that wait. -/
  waiting : number Pc.Announced s.threads = s.m_waiting_writers
  toRead : ∀ i ∈ s.m_ok_to_read, s.threads i = .readParked
  toWrite : ∀ i ∈ s.m_ok_to_write, s.threads i = .writeParked
  /-- While a writer is blocked, the lock is taken or somebody will wake a writer. -/
  wakesWriter : s.m_ok_to_write.Nonempty →
    s.m_count ≠ 0 ∨ ∃ i, s.WakesWriter i (s.threads i)
  /-- While a reader is blocked, a writer is in or waits, or somebody will wake the readers. -/
  wakesReaders : s.m_ok_to_read.Nonempty →
    s.m_count < 0 ∨ s.m_waiting_writers ≠ 0 ∨ ∃ i, (s.threads i).WakesReaders
  alive : ∀ i, s.threads i ≠ .aborted

theorem inv_init : Inv (init : JTCRWMutex ι) where
  guarded := ⟨fun i => by simp [init, Pc.Holds], fun i => trivial⟩
  count_ge := neg_one_lt_zero.le
  readers := number_eq_zero.mpr fun i => id
  writers := number_eq_zero.mpr fun i => id
  waiting := number_eq_zero.mpr fun i => id
  toRead i hi := by cases hi
  toWrite i hi := by cases hi
  wakesWriter h := by cases h.choose_spec
  wakesReaders h := by cases h.choose_spec
  alive i h := by cases h

variable {s s' : JTCRWMutex ι} {i : ι} {pc : Pc}

/-- A thread that is not parked is blocked nowhere. -/
theorem Inv.not_mem (hs : Inv s) {old : Pc} (hi : s.threads i = old) (hread : old ≠ .readParked)
    (hwrite : old ≠ .writeParked) : i ∉ s.m_ok_to_read ∧ i ∉ s.m_ok_to_write :=
  ⟨fun h => hread (hi ▸ hs.toRead i h), fun h => hwrite (hi ▸ hs.toWrite i h)⟩

/-- Fewer threads are blocked: those that no longer are will look at the fields themselves. -/
theorem Inv.notify (hs : Inv s) {toRead toWrite : Finset ι} (hread : toRead ⊆ s.m_ok_to_read)
    (hwrite : toWrite ⊆ s.m_ok_to_write) :
    Inv { s with m_ok_to_read := toRead, m_ok_to_write := toWrite } where
  guarded := hs.guarded
  count_ge := hs.count_ge
  readers := hs.readers
  writers := hs.writers
  waiting := hs.waiting
  toRead j hj := hs.toRead j (hread hj)
  toWrite j hj := hs.toWrite j (hwrite hj)
  wakesWriter hne := by
    refine (hs.wakesWriter (hne.mono hwrite)).imp_right ?_
    rintro ⟨k, hk | ⟨hk, hnot⟩⟩
    · exact ⟨k, .inl hk⟩
    · exact ⟨k, .inr ⟨hk, fun hmem => hnot (hwrite hmem)⟩⟩
  wakesReaders hne := hs.wakesReaders (hne.mono hread)
  alive := hs.alive

variable [DecidableEq ι]

/-- **What a step of one thread has to show.**  Who is blocked stays so. -/
theorem Inv.of_goto (hs : Inv s) {owner : Option ι} {m_count : ℤ} {m_waiting_writers : ℕ}
    (hguarded : Guarded Pc.Holds Pc.Knows owner (update s.threads i pc)
      (m_count, m_waiting_writers))
    (hcount : -1 ≤ m_count)
    (hreaders : number (Pc.Has .read) (update s.threads i pc) = m_count.toNat)
    (hwriters : number (Pc.Has .write) (update s.threads i pc) = (-m_count).toNat)
    (hwaiting : number Pc.Announced (update s.threads i pc) = m_waiting_writers)
    (hi : i ∉ s.m_ok_to_read ∧ i ∉ s.m_ok_to_write) (halive : pc ≠ .aborted)
    (hwriter : s.m_ok_to_write.Nonempty →
      m_count ≠ 0 ∨ ∃ k, s.WakesWriter k (update s.threads i pc k))
    (hreader : s.m_ok_to_read.Nonempty →
      m_count < 0 ∨ m_waiting_writers ≠ 0 ∨ ∃ k, (update s.threads i pc k).WakesReaders) :
    Inv { s.goto i pc with
      m_mutex := owner, m_count := m_count, m_waiting_writers := m_waiting_writers } where
  guarded := hguarded
  count_ge := hcount
  readers := hreaders
  writers := hwriters
  waiting := hwaiting
  toRead j hj := (update_of_ne (ne_of_mem_of_not_mem hj hi.1) _ _).trans (hs.toRead j hj)
  toWrite j hj := (update_of_ne (ne_of_mem_of_not_mem hj hi.2) _ _).trans (hs.toWrite j hj)
  wakesWriter := hwriter
  wakesReaders := hreader
  alive := (forall_update_iff s.threads fun _ => (· ≠ .aborted)).mpr ⟨halive, fun j _ => hs.alive j⟩

/-- **A step that changes no field**: the thread is counted as before, and whom it was about to
wake is still going to be woken. -/
theorem Inv.goto (hs : Inv s) {owner : Option ι}
    (hguarded : Guarded Pc.Holds Pc.Knows owner (update s.threads i pc)
      (s.m_count, s.m_waiting_writers))
    (hhas : ∀ mode, pc.Has mode ↔ (s.threads i).Has mode)
    (hannounced : pc.Announced ↔ (s.threads i).Announced)
    (hi : i ∉ s.m_ok_to_read ∧ i ∉ s.m_ok_to_write) (halive : pc ≠ .aborted)
    (hwriter : s.m_ok_to_write.Nonempty → s.WakesWriter i (s.threads i) →
      s.m_count ≠ 0 ∨ ∃ k, s.WakesWriter k (update s.threads i pc k))
    (hreader : s.m_ok_to_read.Nonempty → (s.threads i).WakesReaders →
      s.m_waiting_writers ≠ 0 ∨ pc.WakesReaders) :
    Inv { s.goto i pc with m_mutex := owner } := by
  refine hs.of_goto hguarded hs.count_ge ((number_congr (hhas .read)).trans hs.readers)
    ((number_congr (hhas .write)).trans hs.writers) ((number_congr hannounced).trans hs.waiting) hi
    halive (fun hne => ?_) fun hne => ?_
  · rcases hs.wakesWriter hne with hcount | ⟨k, hk⟩
    · exact .inl hcount
    · rcases eq_or_ne k i with rfl | hki
      · exact hwriter hne hk
      · exact .inr ⟨k, by rwa [update_of_ne hki]⟩
  · rcases hs.wakesReaders hne with hcount | hww | ⟨k, hk⟩
    · exact .inl hcount
    · exact .inr (.inl hww)
    · rcases eq_or_ne k i with rfl | hki
      · exact .inr ((hreader hne hk).imp_right fun h => ⟨k, by rwa [update_self]⟩)
      · exact .inr (.inr ⟨k, by rwa [update_of_ne hki]⟩)

/-- A step to a place that is counted the same and wakes whom the old one did. -/
theorem Inv.goto_quiet (hs : Inv s) {old : Pc} (hold : s.threads i = old) {owner : Option ι}
    (hguarded : Guarded Pc.Holds Pc.Knows owner (update s.threads i pc)
      (s.m_count, s.m_waiting_writers))
    (hhas : ∀ mode, pc.Has mode ↔ old.Has mode) (hannounced : pc.Announced ↔ old.Announced)
    (hi : i ∉ s.m_ok_to_read ∧ i ∉ s.m_ok_to_write) (halive : pc ≠ .aborted)
    (hwriter : s.WakesWriter i old → s.WakesWriter i pc)
    (hreader : old.WakesReaders → pc.WakesReaders) : Inv { s.goto i pc with m_mutex := owner } := by
  subst hold
  exact hs.goto hguarded hhas hannounced hi halive
    (fun _ h => .inr ⟨i, by rw [update_self]; exact hwriter h⟩) fun _ h => .inr (hreader h)

/-- A thread that has just entered the wait is blocked, if a writer is in or waits. -/
theorem Inv.block_reader (hs : Inv s) (hi : s.threads i = .readParked)
    (h : s.m_count < 0 ∨ s.m_waiting_writers ≠ 0) :
    Inv { s with m_ok_to_read := insert i s.m_ok_to_read } where
  guarded := hs.guarded
  count_ge := hs.count_ge
  readers := hs.readers
  writers := hs.writers
  waiting := hs.waiting
  toRead j hj := (Finset.mem_insert.mp hj).elim (fun h => h ▸ hi) (hs.toRead j)
  toWrite := hs.toWrite
  wakesWriter := hs.wakesWriter
  wakesReaders _ := h.imp_right .inl
  alive := hs.alive

/-- A writer that has just entered the wait is blocked, if the lock is taken. -/
theorem Inv.block_writer (hs : Inv s) (hi : s.threads i = .writeParked) (h : s.m_count ≠ 0) :
    Inv { s with m_ok_to_write := insert i s.m_ok_to_write } where
  guarded := hs.guarded
  count_ge := hs.count_ge
  readers := hs.readers
  writers := hs.writers
  waiting := hs.waiting
  toRead := hs.toRead
  toWrite j hj := (Finset.mem_insert.mp hj).elim (fun h => h ▸ hi) (hs.toWrite j)
  wakesWriter _ := .inl h
  wakesReaders := hs.wakesReaders
  alive := hs.alive

/-! ## The steps -/

omit [DecidableEq ι] in
/-- A thread that neither wakes a writer nor is one in the wait. -/
theorem not_wakesWriter (s : JTCRWMutex ι) (i : ι) (hwakes : ¬pc.WakesWriter)
    (hparked : pc ≠ .writeParked) : ¬s.WakesWriter i pc :=
  not_or.mpr ⟨hwakes, fun h => hparked h.1⟩

/-- A thread takes `m_mutex`, at a place that is counted the same. -/
theorem inv_acquire (hs : Inv s) {old : Pc} (hold : s.threads i = old)
    (h : s.acquire i pc = some s') (hholds : pc.Holds) (hknows : ∀ d, pc.Knows d)
    (hhas : ∀ mode, pc.Has mode ↔ old.Has mode) (hannounced : pc.Announced ↔ old.Announced)
    (hi : i ∉ s.m_ok_to_read ∧ i ∉ s.m_ok_to_write) (halive : pc ≠ .aborted)
    (hwriter : s.WakesWriter i old → s.WakesWriter i pc)
    (hreader : old.WakesReaders → pc.WakesReaders) : Inv s' := by
  rw [acquire] at h
  split at h
  · rename_i hfree
    obtain rfl := Option.some.inj h
    have hguarded := hs.guarded
    rw [hfree] at hguarded
    exact hs.goto_quiet hold (hguarded.acquire hholds (hknows _)) hhas hannounced hi halive hwriter
      hreader
  · cases h

/-- The owner of `m_mutex` releases it, at a place that is counted the same. -/
theorem inv_release (hs : Inv s) {old : Pc} (hold : s.threads i = old) (hholds : old.Holds)
    (hfree : ¬pc.Holds) (hparked : old ≠ .readParked ∧ old ≠ .writeParked)
    (hhas : ∀ mode, pc.Has mode ↔ old.Has mode) (hannounced : pc.Announced ↔ old.Announced)
    (hwriter : s.WakesWriter i old → s.WakesWriter i pc)
    (hreader : old.WakesReaders → pc.WakesReaders) : Inv (s.release i pc) := by
  have halive : pc ≠ .aborted := fun h => hfree (h ▸ trivial)
  exact hs.goto_quiet hold (hs.guarded.release Pc.knows_of_not_holds (hold ▸ hholds) hfree) hhas
    hannounced (hs.not_mem hold hparked.1 hparked.2) halive hwriter hreader

/-- A thread goes on, with or without `m_mutex`, at a place that is counted the same. -/
theorem inv_goto (hs : Inv s) {old : Pc} (hold : s.threads i = old)
    (hholds : pc.Holds ↔ old.Holds) (hknows : pc.Knows (s.m_count, s.m_waiting_writers))
    (hparked : old ≠ .readParked ∧ old ≠ .writeParked) (halive : pc ≠ .aborted)
    (hhas : ∀ mode, pc.Has mode ↔ old.Has mode) (hannounced : pc.Announced ↔ old.Announced)
    (hwriter : s.m_ok_to_write.Nonempty → s.WakesWriter i old →
      s.m_count ≠ 0 ∨ ∃ k, s.WakesWriter k (update s.threads i pc k))
    (hreader : s.m_ok_to_read.Nonempty → old.WakesReaders →
      s.m_waiting_writers ≠ 0 ∨ pc.WakesReaders) : Inv (s.goto i pc) := by
  subst hold
  exact hs.goto (hs.guarded.goto Pc.knows_of_not_holds hholds (.inl rfl) hknows) hhas hannounced
    (hs.not_mem rfl hparked.1 hparked.2) halive hwriter hreader

/-- The check of `read_lock_internal`. -/
theorem inv_readCheck (hs : Inv s) (hi : s.threads i = .readCheck) :
    Inv (s.goto i
      (if s.m_count < 0 ∨ s.m_waiting_writers ≠ 0 then .readWait else .readEnter)) := by
  have hwriter : ¬s.WakesWriter i .readCheck := s.not_wakesWriter i id nofun
  by_cases hclosed : s.m_count < 0 ∨ s.m_waiting_writers ≠ 0
  · rw [if_pos hclosed]
    exact inv_goto hs hi Iff.rfl hclosed ⟨nofun, nofun⟩ nofun (fun _ => Iff.rfl) Iff.rfl
      (fun _ h => absurd h hwriter) fun _ h => h.elim
  · rw [if_neg hclosed]
    have hcount : 0 ≤ s.m_count := not_lt.mp fun h => hclosed (.inl h)
    exact inv_goto hs hi Iff.rfl hcount ⟨nofun, nofun⟩ nofun (fun _ => Iff.rfl) Iff.rfl
      (fun _ h => absurd h hwriter) fun _ h => h.elim

/-- The check of `write_lock_internal`: the writer either gets in or will wait. -/
theorem inv_writeCheck (hs : Inv s) (hi : s.threads i = .writeCheck) :
    Inv (s.goto i (if s.m_count ≠ 0 then .writeAnnounce else .writeEnter)) := by
  by_cases hcount : s.m_count ≠ 0
  · rw [if_pos hcount]
    exact inv_goto hs hi Iff.rfl hcount ⟨nofun, nofun⟩ nofun (fun _ => Iff.rfl) Iff.rfl
      (fun _ _ => .inl hcount) fun _ _ => .inr trivial
  · rw [if_neg hcount]
    exact inv_goto hs hi Iff.rfl (not_not.mp hcount) ⟨nofun, nofun⟩ nofun (fun _ => Iff.rfl)
      Iff.rfl (fun _ _ => .inr ⟨i, by rw [update_self]; exact .inl trivial⟩)
      fun _ _ => .inr trivial

/-- A reader waits. -/
theorem inv_readWait (hs : Inv s) (hi : s.threads i = .readWait) :
    Inv { s.release i .readParked with m_ok_to_read := insert i s.m_ok_to_read } := by
  have hclosed : s.m_count < 0 ∨ s.m_waiting_writers ≠ 0 := by
    simpa [hi, Pc.Knows] using hs.guarded.knows i
  have hrelease : Inv (s.release i .readParked) :=
    inv_release hs hi trivial id ⟨nofun, nofun⟩ (fun _ => Iff.rfl) Iff.rfl
      (fun h => absurd h (s.not_wakesWriter i id nofun)) False.elim
  exact hrelease.block_reader (update_self i _ _) hclosed

/-- A writer waits. -/
theorem inv_writeWait (hs : Inv s) (hi : s.threads i = .writeWait) :
    Inv { s.release i .writeParked with m_ok_to_write := insert i s.m_ok_to_write } := by
  have hcount : s.m_count ≠ 0 := by simpa [hi, Pc.Knows] using hs.guarded.knows i
  have hrelease : Inv (s.release i .writeParked) :=
    inv_release hs hi trivial id ⟨nofun, nofun⟩ (fun _ => Iff.rfl) Iff.rfl
      (fun h => absurd h (s.not_wakesWriter i id nofun)) False.elim
  exact hrelease.block_writer (update_self i _ _) hcount

omit [DecidableEq ι] in
/-- A reader that holds the lock is counted. -/
theorem Inv.count_of_read (hs : Inv s) (hi : (s.threads i).Has .read) : 0 < s.m_count := by
  have hpos : 0 < s.m_count.toNat := pos_of_number hs.readers hi
  omega

omit [DecidableEq ι] in
/-- A writer that holds the lock is. -/
theorem Inv.count_of_write (hs : Inv s) (hi : (s.threads i).Has .write) : s.m_count = -1 := by
  have hpos : 0 < (-s.m_count).toNat := pos_of_number hs.writers hi
  have hge := hs.count_ge
  omega

/-- A reader gets in. -/
theorem inv_readEnter (hs : Inv s) (hi : s.threads i = .readEnter) :
    Inv { s.goto i .readLeave with m_count := s.m_count + 1 } := by
  have hcount : 0 ≤ s.m_count := by simpa [hi, Pc.Knows] using hs.guarded.knows i
  have hholds : (s.threads i).Holds := by rw [hi]; trivial
  have hreaders : number (Pc.Has .read) (update s.threads i .readLeave) =
      (s.m_count + 1).toNat := by
    rw [Int.toNat_add hcount zero_le_one]
    exact number_enter hs.readers (by rw [hi]; exact id) rfl
  have hwriters : number (Pc.Has .write) (update s.threads i .readLeave) =
      (-(s.m_count + 1)).toNat := by
    rw [number_congr (by rw [hi]; simp [Pc.Has]), hs.writers]
    congr 1
    omega
  refine hs.of_goto (hs.guarded.goto Pc.knows_of_not_holds (iff_of_true trivial hholds)
    (.inr hholds) trivial) (by omega) hreaders hwriters
    ((number_congr (by rw [hi]; exact Iff.rfl)).trans hs.waiting) (hs.not_mem hi nofun nofun) nofun
    (fun _ => .inl (by omega)) fun hne => ?_
  rcases hs.wakesReaders hne with hlt | hww | hk
  · omega
  · exact .inr (.inl hww)
  · exact .inr (.inr (exists_update (Q := fun _ => Pc.WakesReaders) hk (by rw [hi]; exact id)))

/-- A writer gets in. -/
theorem inv_writeEnter (hs : Inv s) (hi : s.threads i = .writeEnter) :
    Inv { s.goto i .writeLeave with m_count := -1 } := by
  have hcount : s.m_count = 0 := by simpa [hi, Pc.Knows] using hs.guarded.knows i
  have hholds : (s.threads i).Holds := by rw [hi]; trivial
  have hreaders : number (Pc.Has .read) (update s.threads i .writeLeave) =
      (-1 : ℤ).toNat := by
    rw [number_congr (by rw [hi]; simp [Pc.Has]), hs.readers, hcount]
    rfl
  have hwriters : number (Pc.Has .write) (update s.threads i .writeLeave) =
      (- -1 : ℤ).toNat := by
    have hwriters := hs.writers
    rw [hcount] at hwriters
    exact number_enter hwriters (by rw [hi]; exact id) rfl
  exact hs.of_goto (hs.guarded.goto Pc.knows_of_not_holds (iff_of_true trivial hholds)
    (.inr hholds) trivial) le_rfl hreaders hwriters
    ((number_congr (by rw [hi]; exact Iff.rfl)).trans hs.waiting) (hs.not_mem hi nofun nofun) nofun
    (fun _ => .inl (by decide)) fun _ => .inl (by decide)

/-- A writer is counted among those that wait. -/
theorem inv_writeAnnounce (hs : Inv s) (hi : s.threads i = .writeAnnounce) :
    Inv { s.goto i .writeWait with m_waiting_writers := s.m_waiting_writers + 1 } := by
  have hcount : s.m_count ≠ 0 := by simpa [hi, Pc.Knows] using hs.guarded.knows i
  have hholds : (s.threads i).Holds := by rw [hi]; trivial
  have hwaiting : number Pc.Announced (update s.threads i .writeWait) =
      (s.m_waiting_writers + 1 : ℕ) :=
    number_enter hs.waiting (by rw [hi]; exact id) trivial
  exact hs.of_goto (hs.guarded.goto Pc.knows_of_not_holds (iff_of_true trivial hholds)
    (.inr hholds) hcount) hs.count_ge ((number_congr (by rw [hi]; exact Iff.rfl)).trans hs.readers)
    ((number_congr (by rw [hi]; exact Iff.rfl)).trans hs.writers) hwaiting
    (hs.not_mem hi nofun nofun) nofun (fun _ => .inl hcount)
    fun _ => .inr (.inl (Nat.succ_ne_zero _))

/-- A writer that is awake is counted there no more. -/
theorem inv_writeRetract (hs : Inv s) (hi : s.threads i = .writeRetract) :
    Inv { s.goto i .writeCheck with m_waiting_writers := s.m_waiting_writers - 1 } := by
  have hholds : (s.threads i).Holds := by rw [hi]; trivial
  have hwaiting : number Pc.Announced (update s.threads i .writeCheck) =
      (s.m_waiting_writers - 1 : ℕ) :=
    number_leave hs.waiting (by rw [hi]; trivial) id
  exact hs.of_goto (hs.guarded.goto Pc.knows_of_not_holds (iff_of_true trivial hholds)
    (.inr hholds) trivial) hs.count_ge ((number_congr (by rw [hi]; exact Iff.rfl)).trans hs.readers)
    ((number_congr (by rw [hi]; exact Iff.rfl)).trans hs.writers) hwaiting
    (hs.not_mem hi nofun nofun) nofun
    (fun _ => .inr ⟨i, by rw [update_self]; exact .inl trivial⟩)
    fun _ => .inr (.inr ⟨i, by rw [update_self]; trivial⟩)

/-- Whoever holds the lock gives it back: `m_count` tells which of the two it is, and the assertion
holds. -/
theorem inv_unlockCount (hs : Inv s) {mode : Mode} (hi : s.threads i = .unlockCount mode) :
    s.m_count ≠ 0 ∧ Inv { s.goto i .unlockDecide with
      m_count := if s.m_count < 0 then 0 else s.m_count - 1 } := by
  have hholds : (s.threads i).Holds := by rw [hi]; trivial
  have hhas : (s.threads i).Has mode := by rw [hi]; rfl
  have hcounts : s.m_count ≠ 0 ∧ -1 ≤ (if s.m_count < 0 then 0 else s.m_count - 1) ∧
      number (Pc.Has .read) (update s.threads i .unlockDecide) =
        (if s.m_count < 0 then 0 else s.m_count - 1).toNat ∧
      number (Pc.Has .write) (update s.threads i .unlockDecide) =
        (-if s.m_count < 0 then 0 else s.m_count - 1).toNat := by
    cases mode with
    | read =>
      have hcount := hs.count_of_read hhas
      have hother : ¬(s.threads i).Has .write := by rw [hi]; exact nofun
      have hreaders : number (Pc.Has .read) (update s.threads i .unlockDecide) =
          (s.m_count.toNat - 1 : ℕ) := number_leave hs.readers hhas id
      have hwriters := (number_congr (iff_of_false (a := Pc.unlockDecide.Has .write) id
        hother)).trans hs.writers
      rw [if_neg hcount.not_gt, hreaders, hwriters]
      exact ⟨hcount.ne', by omega, congrArg _ (by omega), congrArg _ (by omega)⟩
    | write =>
      have hcount := hs.count_of_write hhas
      have hother : ¬(s.threads i).Has .read := by rw [hi]; exact nofun
      have hreaders := (number_congr (iff_of_false (a := Pc.unlockDecide.Has .read) id
        hother)).trans hs.readers
      have hwriters : number (Pc.Has .write) (update s.threads i .unlockDecide) =
          ((-s.m_count).toNat - 1 : ℕ) := number_leave hs.writers hhas id
      rw [if_pos (by omega), hreaders, hwriters, hcount]
      exact ⟨by decide, by decide, rfl, rfl⟩
  obtain ⟨hne, hge, hreaders, hwriters⟩ := hcounts
  exact ⟨hne, hs.of_goto (hs.guarded.goto Pc.knows_of_not_holds (iff_of_true trivial hholds)
    (.inr hholds) trivial) hge hreaders hwriters
    ((number_congr (by rw [hi]; exact Iff.rfl)).trans hs.waiting) (hs.not_mem hi nofun nofun) nofun
    (fun _ => .inr ⟨i, by rw [update_self]; exact .inl trivial⟩)
    fun _ => .inr (.inr ⟨i, by rw [update_self]; trivial⟩)⟩

/-- The decision is right at the time: a blocked writer is counted in `m_waiting_writers`. -/
theorem inv_unlockDecide (hs : Inv s) (hi : s.threads i = .unlockDecide) :
    Inv (s.goto i (.unlockLeave (decide (s.m_waiting_writers ≠ 0 ∧ s.m_count = 0))
      (decide (s.m_waiting_writers = 0)))) := by
  refine inv_goto hs hi Iff.rfl trivial ⟨nofun, nofun⟩ nofun (fun _ => Iff.rfl) Iff.rfl
    (fun hne _ => ?_) fun _ _ => ?_
  · obtain ⟨k, hk⟩ := hne
    have hparked : (s.threads k).Announced := by rw [hs.toWrite k hk]; trivial
    have hww : s.m_waiting_writers ≠ 0 := (pos_of_number hs.waiting hparked).ne'
    refine or_iff_not_imp_left.mpr fun hcount => ⟨i, ?_⟩
    rw [update_self]
    exact .inl (decide_eq_true ⟨hww, not_not.mp hcount⟩)
  · refine or_iff_not_imp_left.mpr fun hww => ⟨?_, ?_⟩
    · exact decide_eq_false fun h => hww h.1
    · exact decide_eq_true (not_not.mp hww)

/-- A thread leaves `unlock`, when nobody is blocked whom it should have woken. -/
theorem inv_unlockEnd (hs : Inv s) {ww wr : Bool} (hi : s.threads i = .wake ww wr)
    (hwriter : ww = true → s.m_ok_to_write.Nonempty → ∃ k ≠ i, s.WakesWriter k (s.threads k))
    (hreader : ww = false → wr = true → s.m_ok_to_read = ∅) : Inv (s.goto i .idle) := by
  refine inv_goto hs hi Iff.rfl trivial ⟨nofun, nofun⟩ nofun (fun _ => Iff.rfl) Iff.rfl
    (fun hne h => ?_) fun hne h => ?_
  · rcases h with hww | ⟨hparked, -⟩
    · obtain ⟨k, hki, hk⟩ := hwriter hww hne
      exact .inr ⟨k, by rwa [update_of_ne hki]⟩
    · cases hparked
  · exact absurd (hreader h.1 h.2) hne.ne_empty

/-- `m_ok_to_write.signal()`: the thread that is woken sees to the others. -/
theorem inv_signal (hs : Inv s) {wr : Bool} {j : ι} (hi : s.threads i = .wake true wr)
    (hj : j ∈ s.m_ok_to_write) :
    Inv { s.goto i .idle with m_ok_to_write := s.m_ok_to_write.erase j } := by
  have hparked := hs.toWrite j hj
  have hji : j ≠ i := by
    rintro rfl
    rw [hi] at hparked
    cases hparked
  have hnotify := hs.notify (Finset.Subset.refl s.m_ok_to_read) (Finset.erase_subset j _)
  exact inv_unlockEnd hnotify hi
    (fun _ _ => ⟨j, hji, .inr ⟨hparked, Finset.notMem_erase j _⟩⟩) nofun

/-- Every step of a thread keeps the invariant. -/
theorem inv_stepThread (hs : Inv s) (hi : s.threads i = pc) (h : s.stepThread i pc = some s') :
    Inv s' := by
  cases pc with
  | idle | holding mode | aborted => cases h
  | readLock | writeLock =>
    exact inv_acquire hs hi h trivial (fun _ => trivial) (fun _ => Iff.rfl) Iff.rfl
      (hs.not_mem hi nofun nofun) nofun (fun hw => absurd hw (s.not_wakesWriter i id nofun))
      False.elim
  | unlockLock mode =>
    exact inv_acquire hs hi h trivial (fun _ => trivial) (fun _ => Iff.rfl) Iff.rfl
      (hs.not_mem hi nofun nofun) nofun (fun hw => absurd hw (s.not_wakesWriter i id nofun))
      False.elim
  | readParked =>
    rw [stepThread] at h
    split at h
    · cases h
    · rename_i hread
      have hwrite : i ∉ s.m_ok_to_write := fun hmem => nomatch hi.symm.trans (hs.toWrite i hmem)
      exact inv_acquire hs hi h trivial (fun _ => trivial) (fun _ => Iff.rfl) Iff.rfl
        ⟨hread, hwrite⟩ nofun (fun hw => absurd hw (s.not_wakesWriter i id nofun)) False.elim
  | writeParked =>
    rw [stepThread] at h
    split at h
    · cases h
    · rename_i hwrite
      have hread : i ∉ s.m_ok_to_read := fun hmem => nomatch hi.symm.trans (hs.toRead i hmem)
      exact inv_acquire hs hi h trivial (fun _ => trivial) (fun _ => Iff.rfl) Iff.rfl
        ⟨hread, hwrite⟩ nofun (fun _ => .inl trivial) False.elim
  | readCheck =>
    obtain rfl := Option.some.inj h
    exact inv_readCheck hs hi
  | writeCheck =>
    obtain rfl := Option.some.inj h
    exact inv_writeCheck hs hi
  | readWait =>
    obtain rfl := Option.some.inj h
    exact inv_readWait hs hi
  | writeWait =>
    obtain rfl := Option.some.inj h
    exact inv_writeWait hs hi
  | readEnter =>
    obtain rfl := Option.some.inj h
    exact inv_readEnter hs hi
  | writeEnter =>
    obtain rfl := Option.some.inj h
    exact inv_writeEnter hs hi
  | writeAnnounce =>
    obtain rfl := Option.some.inj h
    exact inv_writeAnnounce hs hi
  | writeRetract =>
    obtain rfl := Option.some.inj h
    exact inv_writeRetract hs hi
  | readLeave | writeLeave =>
    obtain rfl := Option.some.inj h
    exact inv_release hs hi trivial id ⟨nofun, nofun⟩ (fun _ => Iff.rfl) Iff.rfl
      (fun hw => absurd hw (s.not_wakesWriter i id nofun)) False.elim
  | unlockCount mode =>
    obtain ⟨hne, hinv⟩ := inv_unlockCount hs hi
    rw [stepThread, if_neg hne] at h
    exact Option.some.inj h ▸ hinv
  | unlockDecide =>
    obtain rfl := Option.some.inj h
    exact inv_unlockDecide hs hi
  | unlockLeave ww wr =>
    obtain rfl := Option.some.inj h
    exact inv_release hs hi trivial id ⟨nofun, nofun⟩ (fun _ => Iff.rfl) Iff.rfl
      (fun hw => hw.imp_right nofun) id
  | wake ww wr =>
    cases ww with
    | true =>
      rw [stepThread, if_pos rfl] at h
      split at h
      · rename_i hnobody
        obtain rfl := Option.some.inj h
        exact inv_unlockEnd hs hi (fun _ hne => absurd hnobody hne.ne_empty) nofun
      · cases h
    | false =>
      cases wr with
      | true =>
        obtain rfl := Option.some.inj h
        have hnotify := hs.notify (Finset.empty_subset _) (Finset.Subset.refl s.m_ok_to_write)
        exact inv_unlockEnd hnotify hi nofun fun _ _ => rfl
      | false =>
        obtain rfl := Option.some.inj h
        exact inv_unlockEnd hs hi nofun nofun

/-- A call begins. -/
theorem inv_call (hs : Inv s) {op : Op} (h : op.start (s.threads i) = some pc) :
    Inv (s.goto i pc) := by
  generalize hi : s.threads i = old at h
  cases op with
  | read_lock | write_lock =>
    cases old with
    | idle =>
      obtain rfl := Option.some.inj h
      exact inv_goto hs hi Iff.rfl trivial ⟨nofun, nofun⟩ nofun (fun _ => Iff.rfl) Iff.rfl
        (fun _ hw => absurd hw (s.not_wakesWriter i id nofun)) nofun
    | _ => cases h
  | unlock =>
    cases old with
    | holding mode =>
      obtain rfl := Option.some.inj h
      exact inv_goto hs hi Iff.rfl trivial ⟨nofun, nofun⟩ nofun (fun _ => Iff.rfl) Iff.rfl
        (fun _ hw => absurd hw (s.not_wakesWriter i id nofun)) nofun
    | _ => cases h

/-- **Every step keeps the invariant.** -/
theorem Inv.step (hs : Inv s) {a : Action ι} (h : s.step a = some s') : Inv s' := by
  cases a with
  | call i op =>
    rw [JTCRWMutex.step, Option.map_eq_some_iff] at h
    obtain ⟨pc, hstart, rfl⟩ := h
    exact inv_call hs hstart
  | go i => exact inv_stepThread hs rfl h
  | signal i j =>
    rw [JTCRWMutex.step] at h
    split at h
    · rename_i wr hi
      split at h
      · rename_i hj
        obtain rfl := Option.some.inj h
        exact inv_signal hs hi hj
      · cases h
    · cases h
  | wakeup i =>
    rw [JTCRWMutex.step] at h
    split at h
    · obtain rfl := Option.some.inj h
      exact hs.notify (Finset.erase_subset i _) (Finset.erase_subset i _)
    · cases h

theorem inv_of_run {as : List (Action ι)} (hrun : run step init as = some s) : Inv s := by
  have hstep : ∀ (s : JTCRWMutex ι) (a : Action ι) (s' : JTCRWMutex ι), Inv s → True →
      s.step a = some s' → Inv s' := fun _ _ _ hs _ h => hs.step h
  exact run_invariant hstep inv_init (AllSteps.of_forall (fun _ _ => trivial) _) hrun

/-- **Readers and writers exclude each other.**  After any steps of any number of threads, a
writer that holds the lock is the only thread that does and `m_count` is -1, otherwise `m_count` is
the number of readers, `m_waiting_writers` is the number of writers inside their wait, and the
assertion of `unlock` has not failed. -/
theorem counts_of_run {as : List (Action ι)} (hrun : run step init as = some s) :
    (∀ i j mode, (s.threads i).Has .write → (s.threads j).Has mode → i = j ∧ mode = .write) ∧
      number (Pc.Has .read) s.threads = s.m_count.toNat ∧ -1 ≤ s.m_count ∧
      (s.m_count = -1 ↔ ∃ i, (s.threads i).Has .write) ∧
      ((∀ i, ¬(s.threads i).Has .write) →
        ∃ readers : ℕ, s.m_count = readers ∧ number (Pc.Has .read) s.threads = readers) ∧
      number Pc.Announced s.threads = s.m_waiting_writers ∧ ∀ i, s.threads i ≠ .aborted := by
  have hs := inv_of_run hrun
  have hwriter : s.m_count = -1 ↔ ∃ i, (s.threads i).Has .write := by
    constructor
    · exact fun hcount => exists_of_number hs.writers (by omega)
    · rintro ⟨i, hi⟩
      exact hs.count_of_write hi
  refine ⟨fun i j mode hi hj => ?_, hs.readers, hs.count_ge, hwriter, fun hnone => ?_, hs.waiting,
    hs.alive⟩
  · have hcount := hs.count_of_write hi
    cases mode with
    | read =>
      have hpos := hs.count_of_read hj
      omega
    | write =>
      have hone : number (Pc.Has .write) s.threads ≤ 1 := by
        rw [hs.writers, hcount]
        exact le_rfl
      exact ⟨eq_of_number_le_one hone hi hj, rfl⟩
  · have hne : s.m_count ≠ -1 := fun h => (hwriter.mp h).elim hnone
    have hge := hs.count_ge
    exact ⟨s.m_count.toNat, by omega, hs.readers⟩

/-- Two threads read. -/
theorem counts_of_run_two :
    ∃ s : JTCRWMutex ℕ, run step init
        [.call 0 .read_lock, .go 0, .go 0, .go 0, .go 0, .call 1 .read_lock, .go 1, .go 1, .go 1,
          .go 1] = some s ∧
      s.m_count = 2 ∧ number (Pc.Has .read) s.threads = s.m_count.toNat := by
  obtain ⟨s, hs⟩ := Option.isSome_iff_exists.mp (show (run step (init : JTCRWMutex ℕ)
    [.call 0 .read_lock, .go 0, .go 0, .go 0, .go 0, .call 1 .read_lock, .go 1, .go 1, .go 1,
      .go 1]).isSome = true by decide)
  have hcount : (run step (init : JTCRWMutex ℕ)
      [.call 0 .read_lock, .go 0, .go 0, .go 0, .go 0, .call 1 .read_lock, .go 1, .go 1, .go 1,
        .go 1]).map m_count = some 2 := by decide
  rw [hs] at hcount
  exact ⟨s, hs, Option.some.inj hcount, (counts_of_run hs).2.1⟩

/-! ## Progress -/

/-- A thread can go on, or wake another one. -/
def CanStep (s : JTCRWMutex ι) (i : ι) : Prop :=
  (s.step (.go i)).isSome ∨ ∃ j, (s.step (.signal i j)).isSome

instance CanStep.decidable [Fintype ι] (s : JTCRWMutex ι) (i : ι) : Decidable (s.CanStep i) :=
  inferInstanceAs (Decidable (_ ∨ _))

/-- The owner of `m_mutex` can go on. -/
theorem Inv.canStep_of_holds (hs : Inv s) (hi : (s.threads i).Holds) : s.CanStep i := by
  refine .inl ?_
  have halive := hs.alive i
  rw [JTCRWMutex.step]
  generalize s.threads i = pc at hi halive
  cases pc with
  | unlockCount mode =>
    rw [stepThread]
    split <;> rfl
  | aborted => exact absurd rfl halive
  | _ => first | rfl | exact hi.elim

/-- A thread that is about to wake others can. -/
theorem canStep_of_wake {ww wr : Bool} (hi : s.threads i = .wake ww wr) : s.CanStep i := by
  rcases Finset.eq_empty_or_nonempty s.m_ok_to_write with hnobody | ⟨j, hj⟩
  · left
    rw [step, hi]
    cases ww <;> cases wr <;> simp [stepThread, hnobody]
  · cases ww with
    | true =>
      right
      refine ⟨j, ?_⟩
      rw [step, hi]
      simp [hj]
    | false =>
      left
      rw [step, hi]
      cases wr <;> rfl

/-- Where the threads are when nobody can go on. -/
theorem Inv.stuck_cases (hs : Inv s) (hstuck : ∀ i, ¬s.CanStep i) (i : ι) :
    s.threads i = .idle ∨ (∃ mode, s.threads i = .holding mode) ∨
      (s.threads i = .readParked ∧ i ∈ s.m_ok_to_read) ∨
      (s.threads i = .writeParked ∧ i ∈ s.m_ok_to_write) := by
  have hholds : ∀ j, ¬(s.threads j).Holds := fun j hj => hstuck j (hs.canStep_of_holds hj)
  have hfree : s.m_mutex = none :=
    Option.eq_none_iff_forall_ne_some.mpr fun j hj => hholds j ((hs.guarded.mutex j).mpr hj)
  have hgo : ¬(s.stepThread i (s.threads i)).isSome := fun h => hstuck i (.inl h)
  have hhere := hholds i
  generalize hpc : s.threads i = pc at hgo hhere
  cases pc with
  | idle => exact .inl rfl
  | holding mode => exact .inr (.inl ⟨mode, rfl⟩)
  | readParked =>
    refine .inr (.inr (.inl ⟨rfl, not_not.mp fun hi => hgo ?_⟩))
    simp [stepThread, acquire, hi, hfree]
  | writeParked =>
    refine .inr (.inr (.inr ⟨rfl, not_not.mp fun hi => hgo ?_⟩))
    simp [stepThread, acquire, hi, hfree]
  | wake ww wr => exact absurd (canStep_of_wake hpc) (hstuck i)
  | readLock | writeLock => exact absurd (by simp [stepThread, acquire, hfree]) hgo
  | unlockLock mode => exact absurd (by simp [stepThread, acquire, hfree]) hgo
  | _ => exact absurd trivial hhere

/-- Whoever has the lock is between two calls then. -/
theorem Inv.holding_of_has (hs : Inv s) (hstuck : ∀ i, ¬s.CanStep i) {mode : Mode}
    (hi : (s.threads i).Has mode) : s.threads i = .holding mode := by
  rcases hs.stuck_cases hstuck i with h | ⟨m, h⟩ | ⟨h, -⟩ | ⟨h, -⟩ <;> rw [h] at hi
  · exact hi.elim
  · rw [h, show mode = m from hi]
  · exact hi.elim
  · exact hi.elim

/-- **No wakeup is lost.**  After any steps of any number of threads, if nobody can go on without
a new call, then the threads in a call are readers that wait for a writer, which holds the lock or
waits for it, and writers that wait for somebody who holds it. -/
theorem no_lost_wakeup {as : List (Action ι)} (hrun : run step init as = some s)
    (hstuck : ∀ i, ¬s.CanStep i) (i : ι) :
    s.threads i = .idle ∨ (∃ mode, s.threads i = .holding mode) ∨
      (s.threads i = .readParked ∧
        ∃ j, s.threads j = .holding .write ∨ s.threads j = .writeParked) ∨
      (s.threads i = .writeParked ∧ ∃ j mode, s.threads j = .holding mode) := by
  have hs := inv_of_run hrun
  have hcases := hs.stuck_cases hstuck
  rcases hcases i with hi | hi | ⟨hi, hread⟩ | ⟨hi, hwrite⟩
  · exact .inl hi
  · exact .inr (.inl hi)
  · refine .inr (.inr (.inl ⟨hi, ?_⟩))
    rcases hs.wakesReaders ⟨i, hread⟩ with hcount | hww | ⟨k, hk⟩
    · obtain ⟨k, hk⟩ := exists_of_number hs.writers (by omega)
      exact ⟨k, .inl (hs.holding_of_has hstuck hk)⟩
    · obtain ⟨k, hk⟩ := exists_of_number hs.waiting hww
      refine ⟨k, .inr ?_⟩
      rcases hcases k with h | ⟨m, h⟩ | ⟨h, -⟩ | ⟨h, -⟩
      · exact (h ▸ hk : Pc.idle.Announced).elim
      · exact (h ▸ hk : (Pc.holding m).Announced).elim
      · exact (h ▸ hk : Pc.readParked.Announced).elim
      · exact h
    · rcases hcases k with h | ⟨m, h⟩ | ⟨h, -⟩ | ⟨h, -⟩ <;> rw [h] at hk <;> exact hk.elim
  · refine .inr (.inr (.inr ⟨hi, ?_⟩))
    rcases hs.wakesWriter ⟨i, hwrite⟩ with hcount | ⟨k, hk | ⟨hparked, hnot⟩⟩
    · rcases lt_or_gt_of_ne hcount with hneg | hpos
      · obtain ⟨k, hk⟩ := exists_of_number hs.writers (by omega)
        exact ⟨k, .write, hs.holding_of_has hstuck hk⟩
      · obtain ⟨k, hk⟩ := exists_of_number hs.readers (by omega)
        exact ⟨k, .read, hs.holding_of_has hstuck hk⟩
    · rcases hcases k with h | ⟨m, h⟩ | ⟨h, -⟩ | ⟨h, -⟩ <;> rw [h] at hk <;> exact hk.elim
    · rcases hcases k with h | ⟨m, h⟩ | ⟨h, -⟩ | ⟨-, h⟩
      · cases hparked.symm.trans h
      · cases hparked.symm.trans h
      · cases hparked.symm.trans h
      · exact absurd h hnot

/-- A writer waits for a reader that holds the lock, and a reader for the writer. -/
theorem no_lost_wakeup_chain :
    ∃ s : JTCRWMutex (Fin 3), run step init
        [.call 0 .read_lock, .go 0, .go 0, .go 0, .go 0, .call 1 .write_lock, .go 1, .go 1, .go 1,
          .go 1, .call 2 .read_lock, .go 2, .go 2, .go 2] = some s ∧
      s.threads 1 = .writeParked ∧ s.threads 2 = .readParked ∧
        ∃ j mode, s.threads j = .holding mode := by
  obtain ⟨s, hs⟩ := Option.isSome_iff_exists.mp (show (run step (init : JTCRWMutex (Fin 3))
    [.call 0 .read_lock, .go 0, .go 0, .go 0, .go 0, .call 1 .write_lock, .go 1, .go 1, .go 1,
      .go 1, .call 2 .read_lock, .go 2, .go 2, .go 2]).isSome = true by decide)
  have hend : ∀ s ∈ run step (init : JTCRWMutex (Fin 3))
      [.call 0 .read_lock, .go 0, .go 0, .go 0, .go 0, .call 1 .write_lock, .go 1, .go 1, .go 1,
        .go 1, .call 2 .read_lock, .go 2, .go 2, .go 2],
      s.threads 1 = .writeParked ∧ s.threads 2 = .readParked ∧ ∀ i, ¬s.CanStep i := by decide
  obtain ⟨hwriter, hreader, hstuck⟩ := hend s hs
  refine ⟨s, hs, hwriter, hreader, ?_⟩
  rcases no_lost_wakeup hs hstuck 1 with h | ⟨mode, h⟩ | ⟨h, -⟩ | ⟨-, h⟩
  · cases hwriter.symm.trans h
  · cases hwriter.symm.trans h
  · cases hwriter.symm.trans h
  · exact h

/-! ## No overtaking -/

/-- A reader gets past its check only when no writer is in or waits. -/
theorem reads_of_stepThread (hi : s.threads i = pc) (h : s.stepThread i pc = some s') :
    ∃ pc', s'.threads = update s.threads i pc' ∧
      (pc'.Reads → pc.Reads ∨ pc = .readCheck ∧ s.m_waiting_writers = 0) := by
  have hacquire : ∀ {old new : Pc}, s.acquire i new = some s' → (new.Reads → old.Reads) →
      ∃ pc', s'.threads = update s.threads i pc' ∧
        (pc'.Reads → old.Reads ∨ old = .readCheck ∧ s.m_waiting_writers = 0) := by
    intro old new h hnew
    rw [acquire] at h
    split at h
    · obtain rfl := Option.some.inj h
      exact ⟨new, rfl, fun hr => .inl (hnew hr)⟩
    · cases h
  cases pc with
  | idle | holding mode | aborted => cases h
  | readLock | writeLock => exact hacquire h id
  | unlockLock mode => exact hacquire h id
  | readParked | writeParked =>
    rw [stepThread] at h
    split at h
    · cases h
    · exact hacquire h id
  | readCheck =>
    obtain rfl := Option.some.inj h
    refine ⟨_, rfl, fun hr => .inr ⟨rfl, ?_⟩⟩
    by_contra hww
    rw [if_pos (.inr hww)] at hr
    exact hr
  | writeCheck =>
    obtain rfl := Option.some.inj h
    refine ⟨_, rfl, fun hr => ?_⟩
    split at hr <;> exact hr.elim
  | unlockCount mode =>
    rw [stepThread] at h
    split at h <;> obtain rfl := Option.some.inj h <;> exact ⟨_, rfl, False.elim⟩
  | wake ww wr =>
    refine ⟨.idle, ?_, False.elim⟩
    rw [stepThread] at h
    split at h
    · split at h
      · obtain rfl := Option.some.inj h
        rfl
      · cases h
    · split at h <;> obtain rfl := Option.some.inj h <;> rfl
  | readEnter | readLeave =>
    obtain rfl := Option.some.inj h
    exact ⟨_, rfl, fun _ => .inl trivial⟩
  | _ =>
    obtain rfl := Option.some.inj h
    exact ⟨_, rfl, fun hr => nomatch hr⟩

omit [DecidableEq ι] in
/-- While a writer waits, a reader that has `m_mutex` finds one. -/
theorem Inv.waiting_of_readCheck (hs : Inv s) {w : ι} (hw : (s.threads w).WaitsToWrite)
    (hi : s.threads i = .readCheck) : s.m_waiting_writers ≠ 0 := by
  have hholds : (s.threads i).Holds := by rw [hi]; trivial
  have hwi : ¬(s.threads w).Holds := by
    intro h
    rw [hs.guarded.eq_of_holds h hholds, hi] at hw
    exact hw
  refine (pos_of_number (i := w) hs.waiting ?_).ne'
  generalize s.threads w = pc at hw hwi
  cases pc <;> trivial

/-- One step lets no reader in while a writer waits. -/
theorem Inv.reads_step (hs : Inv s) {w : ι} (hw : (s.threads w).WaitsToWrite) {a : Action ι}
    (h : s.step a = some s') (j : ι) (hj : (s'.threads j).Reads) : (s.threads j).Reads := by
  have hupdate : ∀ {k : ι} {old new : Pc}, s.threads k = old →
      s'.threads = update s.threads k new → (new.Reads → old.Reads) → (s.threads j).Reads := by
    rintro k old new rfl hthreads hnew
    rw [hthreads] at hj
    rcases eq_or_ne j k with rfl | hjk
    · rw [update_self] at hj
      exact hnew hj
    · rwa [update_of_ne hjk] at hj
  cases a with
  | call i op =>
    rw [JTCRWMutex.step, Option.map_eq_some_iff] at h
    obtain ⟨pc, hstart, rfl⟩ := h
    refine hupdate rfl rfl fun hr => ?_
    generalize s.threads i = old at hstart
    cases op <;> cases old <;> cases hstart
    · exact hr.elim
    · exact hr.elim
    · exact hr
  | go i =>
    obtain ⟨pc, hthreads, hpc⟩ := reads_of_stepThread rfl h
    refine hupdate rfl hthreads fun hr => (hpc hr).resolve_right fun hcheck => ?_
    exact hs.waiting_of_readCheck hw hcheck.1 hcheck.2
  | signal i k =>
    rw [JTCRWMutex.step] at h
    split at h
    · rename_i wr hi
      split at h
      · obtain rfl := Option.some.inj h
        exact hupdate hi rfl id
      · cases h
    · cases h
  | wakeup i =>
    rw [JTCRWMutex.step] at h
    split at h
    · obtain rfl := Option.some.inj h
      exact hj
    · cases h

/-- **No reader overtakes a writer.**  While a writer that came to `write_lock` has not got the
lock, the threads that get past the check of `read_lock` are those that had already: whatever
steps the others take, no other reader gets in. -/
theorem no_overtaking {as bs : List (Action ι)} {w : ι} (hrun : run step init as = some s)
    (hwait : AllSteps step (fun t _ => (t.threads w).WaitsToWrite) s bs)
    (hrun' : run step s bs = some s') : ∀ i, (s'.threads i).Reads → (s.threads i).Reads := by
  have hstep : ∀ (t : JTCRWMutex ι) (a : Action ι) (t' : JTCRWMutex ι),
      (Inv t ∧ ∀ i, (t.threads i).Reads → (s.threads i).Reads) → (t.threads w).WaitsToWrite →
        t.step a = some t' → Inv t' ∧ ∀ i, (t'.threads i).Reads → (s.threads i).Reads := by
    intro t a t' ht hw h
    exact ⟨ht.1.step h, fun i hi => ht.2 i (ht.1.reads_step hw h i hi)⟩
  exact (run_invariant hstep ⟨inv_of_run hrun, fun _ => id⟩ hwait hrun').2

/-- A reader that comes after a writer waits, although another reader holds the lock. -/
theorem no_overtaking_third :
    ∃ s s' : JTCRWMutex ℕ, run step init
        [.call 0 .read_lock, .go 0, .go 0, .go 0, .go 0, .call 1 .write_lock, .go 1, .go 1] =
          some s ∧
      run step s [.go 1, .go 1, .call 2 .read_lock, .go 2, .go 2, .go 2] = some s' ∧
      ((s'.threads 2).Reads → (s.threads 2).Reads) := by
  obtain ⟨s, hs⟩ := Option.isSome_iff_exists.mp (show (run step (init : JTCRWMutex ℕ)
    [.call 0 .read_lock, .go 0, .go 0, .go 0, .go 0, .call 1 .write_lock, .go 1,
      .go 1]).isSome = true by decide)
  have hend : ∀ s ∈ run step (init : JTCRWMutex ℕ)
      [.call 0 .read_lock, .go 0, .go 0, .go 0, .go 0, .call 1 .write_lock, .go 1, .go 1],
      (run step s [.go 1, .go 1, .call 2 .read_lock, .go 2, .go 2, .go 2]).isSome ∧
        AllSteps step (fun t _ => (t.threads 1).WaitsToWrite) s
          [.go 1, .go 1, .call 2 .read_lock, .go 2, .go 2, .go 2] := by decide
  obtain ⟨hrun, hwait⟩ := hend s hs
  obtain ⟨s', hs'⟩ := Option.isSome_iff_exists.mp hrun
  exact ⟨s, s', hs, hs', no_overtaking hs hwait hs' 2⟩

end JTCRWMutex

end CppCore.Pal
