import CppCore.Lib.Run
import CppCore.Lib.SetTraversal
import Mathlib.Data.Fintype.Card

/-!
# Dispatching packets to listeners

`MessageRouter::checkQueue` pops the packets of the queue and calls, for each of them, the
`processSystemMessage` of the listeners in the set, in the order of their addresses.  It walks with
an iterator through the set itself, and a callback may register and deregister listeners while the
iterator stands at the listener it belongs to.

A callback is what it does to the router, in the order in which it does it; other threads push
packets at any time.  For each packet the state records the set when its dispatch began and, for
each call, the listener and the set the callback left.

## Main definitions

* `Dispatcher`, `Dispatcher.step` — the loops of `checkQueue`, one line at a time.
* `Dispatcher.OnErased` — the iterator is about to be advanced, and its listener has been erased.
* `Dispatcher.KeepsItself` — the callback that runs next does not deregister its own listener.
* `Dispatcher.Sound` — what is expected of a run of `checkQueue`.
* `Dispatcher.sound_iff` — which runs are sound.
-/

namespace CppCore.MessageRouter

open Lib

/-! ## The loops -/

/-- The dispatch of a packet so far. -/
structure Dispatch (Listener : Type) (ρ : Type) where
  /-- The packet. -/
  packet : ρ
  /-- The listeners when its dispatch began. -/
  begun : Finset Listener
  /-- The listeners called, each with the set after its callback. -/
  calls : List (Listener × Finset Listener)

/-- Where `checkQueue` is. -/
inductive DispatchPc (Listener : Type) (ρ : Type)
  /-- `if (m_messageQueue->empty())`. -/
  | empty
  /-- `while(!m_messageQueue->empty())`. -/
  | loop
  /-- `if(m_messageQueue->tryPop(res))`, and `it = m_listeners.begin()`. -/
  | tryPop
  /-- `it != m_listeners.end()`. -/
  | test (d : Dispatch Listener ρ) (it : Option Listener)
  /-- `(*it)->processSystemMessage(*res)`. -/
  | call (d : Dispatch Listener ρ) (it : Listener)
  /-- `++it`; `erased` if the element `it` stands at is no longer in the set. -/
  | next (d : Dispatch Listener ρ) (it : Listener) (erased : Bool)
  /-- `delete res`. -/
  | delete (d : Dispatch Listener ρ)
  /-- `checkQueue` has returned. -/
  | done

/-- What a callback does to the router. -/
inductive ListenerOp (Listener : Type) (ρ : Type)
  /-- It calls `registerListener`. -/
  | registerListener (messageListener : Listener)
  /-- It calls `deregisterListener`. -/
  | deregisterListener (messageListener : Listener)
  /-- A packet is pushed meanwhile, by the callback or by another thread. -/
  | push (packet : ρ)

/-- What can happen next. -/
inductive DispatchAction (Listener : Type) (ρ : Type)
  /-- `checkQueue` goes on by a line. -/
  | checkQueue
  /-- The callback of the listener at the iterator runs. -/
  | processSystemMessage (ops : List (ListenerOp Listener ρ))
  /-- Another thread pushes a packet. -/
  | push (packet : ρ)

/-- The packets a callback pushes by one thing it does. -/
def ListenerOp.pushed {Listener ρ : Type} : ListenerOp Listener ρ → List ρ
  | .push packet => [packet]
  | _ => []

/-- The packets that are pushed. -/
def DispatchAction.pushed {Listener ρ : Type} : DispatchAction Listener ρ → List ρ
  | .checkQueue => []
  | .processSystemMessage ops => ops.flatMap ListenerOp.pushed
  | .push packet => [packet]

/-- The router while `checkQueue` runs. -/
structure Dispatcher (Listener : Type) (ρ : Type) where
  /-- The set of listeners. -/
  m_listeners : Finset Listener
  /-- The message queue. -/
  m_messageQueue : List ρ
  /-- Where `checkQueue` is. -/
  pc : DispatchPc Listener ρ
  /-- The dispatches that are over. -/
  dispatches : List (Dispatch Listener ρ)

variable {Listener ρ : Type} [LinearOrder Listener]

namespace Dispatcher

/-- `checkQueue` is called. -/
def init (m_listeners : Finset Listener) (m_messageQueue : List ρ) : Dispatcher Listener ρ :=
  ⟨m_listeners, m_messageQueue, .empty, []⟩

/-- `MessageRouter::registerListener`. -/
def registerListener (s : Dispatcher Listener ρ) (messageListener : Listener) :
    Dispatcher Listener ρ :=
  { s with m_listeners := insert messageListener s.m_listeners }

/-- `MessageRouter::deregisterListener`. -/
def deregisterListener (s : Dispatcher Listener ρ) (messageListener : Listener) :
    Dispatcher Listener ρ :=
  { s with m_listeners := s.m_listeners.erase messageListener }

/-- `ConcurrentQueue::push`. -/
def push (s : Dispatcher Listener ρ) (data : ρ) : Dispatcher Listener ρ :=
  { s with m_messageQueue := s.m_messageQueue ++ [data] }

/-- A callback does one thing. -/
def perform (s : Dispatcher Listener ρ) : ListenerOp Listener ρ → Dispatcher Listener ρ
  | .registerListener messageListener => s.registerListener messageListener
  | .deregisterListener messageListener => s.deregisterListener messageListener
  | .push packet => s.push packet

/-- Whether this erases the element of the listener `it`. -/
def erases (s : Dispatcher Listener ρ) (it : Listener) : ListenerOp Listener ρ → Bool
  | .deregisterListener messageListener => messageListener = it && it ∈ s.m_listeners
  | _ => false

/-- The callback of the listener `it` runs: the router it leaves, and whether the element of `it`
was erased on the way. -/
def processSystemMessage (it : Listener) :
    Dispatcher Listener ρ → List (ListenerOp Listener ρ) → Dispatcher Listener ρ × Bool
  | s, [] => (s, false)
  | s, op :: ops =>
    let r := processSystemMessage it (s.perform op) ops
    (r.1, s.erases it op || r.2)

/-- `checkQueue` goes on by a line.  Advancing an iterator whose element was erased is undefined. -/
def stepCheckQueue (s : Dispatcher Listener ρ) :
    DispatchPc Listener ρ → Option (Dispatcher Listener ρ)
  | .empty => some { s with pc := if s.m_messageQueue.isEmpty then .done else .loop }
  | .loop => some { s with pc := if s.m_messageQueue.isEmpty then .done else .tryPop }
  | .tryPop =>
    match s.m_messageQueue with
    | [] => some { s with pc := .loop }
    | res :: rest =>
      some { s with
        m_messageQueue := rest, pc := .test ⟨res, s.m_listeners, []⟩ (firstKey s.m_listeners) }
  | .test d none => some { s with pc := .delete d }
  | .test d (some it) => some { s with pc := .call d it }
  | .call _ _ => none
  | .next d it false => some { s with pc := .test d (nextKey s.m_listeners it) }
  | .next _ _ true => none
  | .delete d => some { s with pc := .loop, dispatches := s.dispatches ++ [d] }
  | .done => none

/-- One step. -/
def step (s : Dispatcher Listener ρ) :
    DispatchAction Listener ρ → Option (Dispatcher Listener ρ)
  | .checkQueue => s.stepCheckQueue s.pc
  | .processSystemMessage ops =>
    match s.pc with
    | .call d it =>
      let r := processSystemMessage it s ops
      some { r.1 with
        pc := .next { d with calls := d.calls ++ [(it, r.1.m_listeners)] } it r.2 }
    | _ => none
  | .push packet => some (s.push packet)

/-! ## What is expected -/

/-- The dispatch in progress. -/
def current (s : Dispatcher Listener ρ) : List (Dispatch Listener ρ) :=
  match s.pc with
  | .test d _ | .call d _ | .next d _ _ | .delete d => [d]
  | _ => []

/-- The packets that were popped, in the order of their dispatches, and those in the queue. -/
def packets (s : Dispatcher Listener ρ) : List ρ :=
  (s.dispatches ++ s.current).map Dispatch.packet ++ s.m_messageQueue

/-- The iterator is about to be advanced, and the listener it stands at has been erased. -/
def OnErased (s : Dispatcher Listener ρ) : Prop := ∃ d it, s.pc = .next d it true

/-- If a callback runs, it does not deregister the listener it belongs to. -/
def KeepsItself (s : Dispatcher Listener ρ) (a : DispatchAction Listener ρ) : Prop :=
  ∀ ops d it, a = .processSystemMessage ops → s.pc = .call d it → .deregisterListener it ∉ ops

/-- How many lines `checkQueue` takes at most for each packet. -/
def packetCost (Listener : Type) [Fintype Listener] : ℕ := 3 * Fintype.card Listener + 5

/-- What is expected of a call of `checkQueue` with the packets `queue`, after the steps `as`. -/
structure Sound [Fintype Listener] (queue : List ρ) (as : List (DispatchAction Listener ρ))
    (s : Dispatcher Listener ρ) : Prop where
  /-- No iterator to an erased listener is advanced. -/
  iterator : ¬s.OnErased
  /-- The packets are dispatched in the order of the queue. -/
  order : s.packets = queue ++ as.flatMap DispatchAction.pushed
  /-- A packet was delivered once to each listener that was registered at its turn, and to no
  other. -/
  once : ∀ d ∈ s.dispatches, ∀ l,
    (d.calls.map Prod.fst).count l = if l ∈ setAt d.begun d.calls l then 1 else 0
  /-- A listener that is called is registered, and was not called with the packet before. -/
  registered : ∀ d l, s.pc = .call d l → l ∈ s.m_listeners ∧ l ∉ d.calls.map Prod.fst
  /-- `checkQueue` has returned or can go on. -/
  goesOn : s.pc = .done ∨ ∃ a : DispatchAction Listener ρ, a.pushed = [] ∧ (s.step a).isSome
  /-- Without new packets it returns after so many steps. -/
  terminates : as.flatMap DispatchAction.pushed = [] →
    as.length ≤ queue.length * packetCost Listener + 2
  /-- Without new packets it returns with an empty queue. -/
  emptied : as.flatMap DispatchAction.pushed = [] → s.pc = .done → s.m_messageQueue = []

/-! ## Callbacks -/

@[simp] theorem pc_processSystemMessage (it : Listener) (s : Dispatcher Listener ρ)
    (ops : List (ListenerOp Listener ρ)) : (processSystemMessage it s ops).1.pc = s.pc := by
  induction ops generalizing s with
  | nil => rfl
  | cons op ops ih =>
    rw [processSystemMessage, ih]
    cases op <;> rfl

@[simp] theorem dispatches_processSystemMessage (it : Listener) (s : Dispatcher Listener ρ)
    (ops : List (ListenerOp Listener ρ)) :
    (processSystemMessage it s ops).1.dispatches = s.dispatches := by
  induction ops generalizing s with
  | nil => rfl
  | cons op ops ih =>
    rw [processSystemMessage, ih]
    cases op <;> rfl

/-- A callback appends the packets it pushes to the queue. -/
@[simp] theorem m_messageQueue_processSystemMessage (it : Listener) (s : Dispatcher Listener ρ)
    (ops : List (ListenerOp Listener ρ)) :
    (processSystemMessage it s ops).1.m_messageQueue =
      s.m_messageQueue ++ ops.flatMap ListenerOp.pushed := by
  induction ops generalizing s with
  | nil => simp [processSystemMessage]
  | cons op ops ih =>
    rw [processSystemMessage, ih, List.flatMap_cons, ← List.append_assoc]
    cases op <;> simp [perform, registerListener, deregisterListener, push, ListenerOp.pushed]

/-- **When a callback loses its own element**: exactly if it deregisters its listener. -/
theorem erased_processSystemMessage_iff {it : Listener} {s : Dispatcher Listener ρ}
    (hit : it ∈ s.m_listeners) (ops : List (ListenerOp Listener ρ)) :
    (processSystemMessage it s ops).2 = true ↔ .deregisterListener it ∈ ops := by
  induction ops generalizing s with
  | nil => simp [processSystemMessage]
  | cons op ops ih =>
    rw [processSystemMessage, Bool.or_eq_true, List.mem_cons]
    cases op with
    | registerListener l =>
      have hit' : it ∈ (s.perform (.registerListener l)).m_listeners := Finset.mem_insert_of_mem hit
      simp [ih hit', erases]
    | push packet => simp [ih (s := s.perform (.push packet)) hit, erases]
    | deregisterListener l =>
      by_cases hl : l = it
      · simp [erases, hl, hit]
      · have hit' : it ∈ (s.perform (.deregisterListener l)).m_listeners :=
          Finset.mem_erase_of_ne_of_mem (Ne.symm hl) hit
        simp [ih hit', erases, hl, Ne.symm hl]

/-! ## Steps -/

/-- What a line of `checkQueue` can do. -/
inductive Line (s : Dispatcher Listener ρ) : Dispatcher Listener ρ → Prop
  /-- It finds the queue empty and returns. -/
  | returns (hpc : s.pc = .empty ∨ s.pc = .loop) (hqueue : s.m_messageQueue = []) :
    Line s { s with pc := .done }
  /-- It finds a packet and enters the loop. -/
  | enters (hpc : s.pc = .empty) : Line s { s with pc := .loop }
  /-- It finds a packet and goes on with it. -/
  | goesOn (hpc : s.pc = .loop) (hqueue : s.m_messageQueue ≠ []) : Line s { s with pc := .tryPop }
  /-- It pops nothing. -/
  | misses (hpc : s.pc = .tryPop) (hqueue : s.m_messageQueue = []) : Line s { s with pc := .loop }
  /-- It pops a packet, and the walk begins. -/
  | pops (hpc : s.pc = .tryPop) {res : ρ} {rest : List ρ}
    (hqueue : s.m_messageQueue = res :: rest) :
    Line s { s with
      m_messageQueue := rest, pc := .test ⟨res, s.m_listeners, []⟩ (firstKey s.m_listeners) }
  /-- The walk is at its end. -/
  | ends {d : Dispatch Listener ρ} (hpc : s.pc = .test d none) : Line s { s with pc := .delete d }
  /-- The walk has come to a listener. -/
  | comes {d : Dispatch Listener ρ} {it : Listener} (hpc : s.pc = .test d (some it)) :
    Line s { s with pc := .call d it }
  /-- The walk goes on. -/
  | advances {d : Dispatch Listener ρ} {it : Listener} (hpc : s.pc = .next d it false) :
    Line s { s with pc := .test d (nextKey s.m_listeners it) }
  /-- The packet is deleted. -/
  | deletes {d : Dispatch Listener ρ} (hpc : s.pc = .delete d) :
    Line s { s with pc := .loop, dispatches := s.dispatches ++ [d] }

theorem line_of_stepCheckQueue {s s' : Dispatcher Listener ρ}
    (hstep : s.stepCheckQueue s.pc = some s') : s.Line s' := by
  cases hpc : s.pc with
  | empty =>
    rw [hpc] at hstep
    obtain rfl := Option.some.inj hstep
    by_cases hqueue : s.m_messageQueue = []
    · simpa [hqueue] using Line.returns (Or.inl hpc) hqueue
    · simpa [hqueue] using Line.enters hpc
  | loop =>
    rw [hpc] at hstep
    obtain rfl := Option.some.inj hstep
    by_cases hqueue : s.m_messageQueue = []
    · simpa [hqueue] using Line.returns (Or.inr hpc) hqueue
    · simpa [hqueue] using Line.goesOn hpc hqueue
  | tryPop =>
    rw [hpc, stepCheckQueue] at hstep
    split at hstep
    · rename_i hqueue
      obtain rfl := Option.some.inj hstep
      exact .misses hpc hqueue
    · rename_i hqueue
      obtain rfl := Option.some.inj hstep
      exact .pops hpc hqueue
  | test d it =>
    rw [hpc] at hstep
    cases it with
    | none =>
      obtain rfl := Option.some.inj hstep
      exact .ends hpc
    | some it =>
      obtain rfl := Option.some.inj hstep
      exact .comes hpc
  | next d it erased =>
    rw [hpc] at hstep
    cases erased with
    | true => cases hstep
    | false =>
      obtain rfl := Option.some.inj hstep
      exact .advances hpc
  | delete d =>
    rw [hpc] at hstep
    obtain rfl := Option.some.inj hstep
    exact .deletes hpc
  | call d it | done =>
    rw [hpc] at hstep
    cases hstep

/-- What a callback leads to. -/
theorem step_processSystemMessage {s s' : Dispatcher Listener ρ}
    {ops : List (ListenerOp Listener ρ)} (h : s.step (.processSystemMessage ops) = some s') :
    ∃ d it, s.pc = .call d it ∧
      s' = { (processSystemMessage it s ops).1 with
        pc := .next { d with
          calls := d.calls ++ [(it, (processSystemMessage it s ops).1.m_listeners)] } it
            (processSystemMessage it s ops).2 } := by
  rw [step] at h
  split at h
  · rename_i d it hpc
    exact ⟨d, it, hpc, (Option.some.inj h).symm⟩
  · cases h

/-- Every step appends what is pushed to the packets. -/
theorem packets_step (s : Dispatcher Listener ρ) (a : DispatchAction Listener ρ)
    (s' : Dispatcher Listener ρ) (hstep : s.step a = some s') :
    s'.packets = s.packets ++ a.pushed := by
  cases a with
  | push packet =>
    obtain rfl := Option.some.inj hstep
    exact (List.append_assoc _ _ _).symm
  | processSystemMessage ops =>
    obtain ⟨d, it, hpc, rfl⟩ := step_processSystemMessage hstep
    simp [packets, current, hpc, DispatchAction.pushed]
  | checkQueue =>
    cases line_of_stepCheckQueue hstep with
    | returns hpc hqueue =>
      rcases hpc with hpc | hpc <;> simp [packets, current, hpc, DispatchAction.pushed]
    | pops hpc hqueue => simp [packets, current, hpc, hqueue, DispatchAction.pushed]
    | enters hpc | goesOn hpc | misses hpc | ends hpc | comes hpc | advances hpc | deletes hpc =>
      simp [packets, current, hpc, DispatchAction.pushed]

/-! ## Walks -/

/-- How far the walk for a packet has come at each place. -/
def Walking (s : Dispatcher Listener ρ) : DispatchPc Listener ρ → Prop
  | .tryPop => s.m_messageQueue ≠ []
  | .test d it =>
    Visited d.begun d.calls it ∧ setNow d.begun d.calls = s.m_listeners ∧
      ∀ l ∈ it, l ∈ s.m_listeners
  | .call d it =>
    Visited d.begun d.calls (some it) ∧ setNow d.begun d.calls = s.m_listeners ∧
      it ∈ s.m_listeners
  | .next d it _ =>
    Visited d.begun d.calls (nextKey s.m_listeners it) ∧ setNow d.begun d.calls = s.m_listeners
  | .delete d => Visited d.begun d.calls none
  | _ => True

/-- What holds in every state of a run. -/
structure Inv (s : Dispatcher Listener ρ) : Prop where
  /-- The dispatches that are over have visited all listeners. -/
  finished : ∀ d ∈ s.dispatches, Visited d.begun d.calls none
  /-- So has the one in progress, up to its iterator. -/
  walking : s.Walking s.pc

theorem inv_init (m_listeners : Finset Listener) (m_messageQueue : List ρ) :
    (init m_listeners m_messageQueue).Inv where
  finished := by simp [init]
  walking := trivial

/-- A step of another thread disturbs no walk. -/
theorem Inv.push {s : Dispatcher Listener ρ} (h : s.Inv) (packet : ρ) : (s.push packet).Inv where
  finished := h.finished
  walking := by
    have hwalking := h.walking
    change (s.push packet).Walking s.pc
    cases hpc : s.pc with
    | tryPop => simp [Walking, Dispatcher.push]
    | empty | loop | done => trivial
    | test d it | call d it | next d it erased | delete d =>
      rw [hpc] at hwalking
      exact hwalking

/-- A line of `checkQueue` keeps the invariant. -/
theorem Inv.line {s s' : Dispatcher Listener ρ} (h : s.Inv) (hline : s.Line s') : s'.Inv := by
  have hwalking := h.walking
  cases hline with
  | returns | enters | misses => exact ⟨h.finished, trivial⟩
  | goesOn hpc hqueue => exact ⟨h.finished, hqueue⟩
  | pops hpc hqueue =>
    exact ⟨h.finished, Visited.nil s.m_listeners, rfl, fun l hl => mem_of_firstKey hl⟩
  | ends hpc =>
    rw [hpc] at hwalking
    exact ⟨h.finished, hwalking.1⟩
  | comes hpc =>
    rw [hpc] at hwalking
    exact ⟨h.finished, hwalking.1, hwalking.2.1, hwalking.2.2 _ rfl⟩
  | advances hpc =>
    rw [hpc] at hwalking
    exact ⟨h.finished, hwalking.1, hwalking.2, fun l hl => (mem_of_nextKey hl).1⟩
  | deletes hpc =>
    rw [hpc] at hwalking
    refine ⟨fun d' hd' => ?_, trivial⟩
    rcases List.mem_append.mp hd' with hold | hnew
    · exact h.finished d' hold
    · rw [List.mem_singleton.mp hnew]
      exact hwalking

/-- **Every step keeps the invariant**, whatever the callbacks do. -/
theorem inv_step (s : Dispatcher Listener ρ) (a : DispatchAction Listener ρ)
    (s' : Dispatcher Listener ρ) (h : s.Inv) (hstep : s.step a = some s') : s'.Inv := by
  cases a with
  | checkQueue => exact h.line (line_of_stepCheckQueue hstep)
  | push packet =>
    obtain rfl := Option.some.inj hstep
    exact h.push packet
  | processSystemMessage ops =>
    obtain ⟨d, it, hpc, rfl⟩ := step_processSystemMessage hstep
    have hwalking := h.walking
    rw [hpc] at hwalking
    obtain ⟨hvisited, hnow, hmem⟩ := hwalking
    refine ⟨?_, ?_, ?_⟩
    · simpa using h.finished
    · exact hvisited.concat (hnow ▸ hmem) _
    · exact setNow_concat _ _ _

/-! ## Termination -/

section Termination

variable [Fintype Listener]

/-- How many listeners a walk has before it at most. -/
def remaining : Option Listener → ℕ
  | none => 0
  | some it => (Finset.univ.filter (it ≤ ·)).card

theorem remaining_le (it : Option Listener) : remaining it ≤ Fintype.card Listener := by
  cases it with
  | none => exact Nat.zero_le _
  | some it => exact Finset.card_le_univ _

/-- The walk leaves the listener it stands at behind. -/
theorem remaining_nextKey_lt (s : Finset Listener) (it : Listener) :
    remaining (nextKey s it) < remaining (some it) := by
  have hmem : it ∈ Finset.univ.filter (it ≤ ·) := by simp
  cases hnext : nextKey s it with
  | none => exact Finset.card_pos.mpr ⟨it, hmem⟩
  | some l =>
    have hlt : it < l := (mem_of_nextKey hnext).2
    apply Finset.card_lt_card
    rw [Finset.ssubset_iff_of_subset]
    · exact ⟨it, hmem, by simpa using hlt⟩
    · intro k hk
      simp only [Finset.mem_filter, Finset.mem_univ, true_and] at hk ⊢
      exact hlt.le.trans hk

/-- How many steps `checkQueue` takes at most until it returns, without new packets. -/
def stepsLeft (s : Dispatcher Listener ρ) : ℕ :=
  s.m_messageQueue.length * packetCost Listener +
    match s.pc with
    | .empty => 2
    | .loop => 1
    | .tryPop => 0
    | .test _ it => 3 * remaining it + 3
    | .call _ it => 3 * remaining (some it) + 2
    | .next _ it _ => 3 * remaining (some it) + 1
    | .delete _ => 2
    | .done => 0

/-- **Every step that pushes nothing comes closer to the end.** -/
theorem stepsLeft_lt (s : Dispatcher Listener ρ) (a : DispatchAction Listener ρ)
    (s' : Dispatcher Listener ρ) (h : s.Inv) (hpushed : a.pushed = [])
    (hstep : s.step a = some s') : s'.stepsLeft < s.stepsLeft := by
  cases a with
  | push packet => cases hpushed
  | processSystemMessage ops =>
    obtain ⟨d, it, hpc, rfl⟩ := step_processSystemMessage hstep
    have hops : ops.flatMap ListenerOp.pushed = [] := hpushed
    simp only [stepsLeft, hpc, m_messageQueue_processSystemMessage, hops, List.append_nil]
    omega
  | checkQueue =>
    cases line_of_stepCheckQueue hstep with
    | returns hpc hqueue => rcases hpc with hpc | hpc <;> simp [stepsLeft, hpc, hqueue]
    | enters hpc | goesOn hpc | ends hpc | comes hpc | deletes hpc =>
      simp [stepsLeft, hpc, remaining]
    | misses hpc hqueue =>
      have hwalking := h.walking
      rw [hpc] at hwalking
      exact absurd hqueue hwalking
    | pops hpc hqueue =>
      have hle := remaining_le (firstKey s.m_listeners)
      simp only [stepsLeft, hpc, hqueue, List.length_cons, Nat.add_mul, packetCost]
      omega
    | @advances d it hpc =>
      have hlt := remaining_nextKey_lt s.m_listeners it
      simp only [stepsLeft, hpc]
      omega

end Termination

/-- When `checkQueue` has returned, the queue is empty. -/
def Emptied (s : Dispatcher Listener ρ) : Prop := s.pc = .done → s.m_messageQueue = []

theorem emptied_step (s : Dispatcher Listener ρ) (a : DispatchAction Listener ρ)
    (s' : Dispatcher Listener ρ) (_ : s.Emptied) (hpushed : a.pushed = [])
    (hstep : s.step a = some s') : s'.Emptied := by
  intro hdone
  cases a with
  | push packet => cases hpushed
  | processSystemMessage ops =>
    obtain ⟨d, it, hpc, rfl⟩ := step_processSystemMessage hstep
    cases hdone
  | checkQueue =>
    cases line_of_stepCheckQueue hstep with
    | returns hpc hqueue => exact hqueue
    | enters | goesOn | misses | pops | ends | comes | advances | deletes => cases hdone

/-! ## Sound runs -/

/-- A callback that keeps its own listener loses no iterator. -/
theorem not_onErased_step (s : Dispatcher Listener ρ) (a : DispatchAction Listener ρ)
    (s' : Dispatcher Listener ρ) (h : s.Inv) (hok : s.KeepsItself a) (herased : ¬s.OnErased)
    (hstep : s.step a = some s') : ¬s'.OnErased := by
  intro hbad
  obtain ⟨d', it', hpc'⟩ := hbad
  cases a with
  | push packet =>
    obtain rfl := Option.some.inj hstep
    exact herased ⟨d', it', hpc'⟩
  | processSystemMessage ops =>
    obtain ⟨d, it, hpc, rfl⟩ := step_processSystemMessage hstep
    have hwalking := h.walking
    rw [hpc] at hwalking
    obtain ⟨-, rfl, htrue⟩ := DispatchPc.next.inj hpc'
    exact hok ops d it rfl hpc ((erased_processSystemMessage_iff hwalking.2.2 ops).mp htrue)
  | checkQueue =>
    cases line_of_stepCheckQueue hstep with
    | returns | enters | goesOn | misses | pops | ends | comes | advances | deletes => cases hpc'

/-- A callback that deregisters its own listener leaves the iterator at an erased one. -/
theorem onErased_of_not_keepsItself (s : Dispatcher Listener ρ) (a : DispatchAction Listener ρ)
    (h : s.Inv) (hnot : ¬s.KeepsItself a) : ∃ s', s.step a = some s' ∧ s'.OnErased := by
  simp only [KeepsItself, not_forall, not_not] at hnot
  obtain ⟨ops, d, it, rfl, hpc, hops⟩ := hnot
  have hwalking := h.walking
  rw [hpc] at hwalking
  have herased := (erased_processSystemMessage_iff hwalking.2.2 ops).mpr hops
  refine ⟨{ (processSystemMessage it s ops).1 with
    pc := .next { d with
      calls := d.calls ++ [(it, (processSystemMessage it s ops).1.m_listeners)] } it
        (processSystemMessage it s ops).2 }, ?_, ?_⟩
  · rw [step, hpc]
  · rw [herased]
    exact ⟨_, it, rfl⟩

/-- What holds in every state of the runs that keep to the condition. -/
def Intact (s : Dispatcher Listener ρ) : Prop := s.Inv ∧ ¬s.OnErased

theorem intact_init (m_listeners : Finset Listener) (m_messageQueue : List ρ) :
    (init m_listeners m_messageQueue).Intact := by
  refine ⟨inv_init m_listeners m_messageQueue, ?_⟩
  rintro ⟨d, it, hpc⟩
  cases hpc

theorem intact_step (s : Dispatcher Listener ρ) (a : DispatchAction Listener ρ)
    (s' : Dispatcher Listener ρ) (h : s.Intact) (hok : s.KeepsItself a)
    (hstep : s.step a = some s') : s'.Intact :=
  ⟨inv_step s a s' h.1 hstep, not_onErased_step s a s' h.1 hok h.2 hstep⟩

/-- As long as the iterator is valid `checkQueue` can go on until it returns. -/
theorem goesOn_of_not_onErased (s : Dispatcher Listener ρ) (h : ¬s.OnErased) :
    s.pc = .done ∨ ∃ a : DispatchAction Listener ρ, a.pushed = [] ∧ (s.step a).isSome := by
  cases hpc : s.pc with
  | done => exact Or.inl rfl
  | call d it => exact Or.inr ⟨.processSystemMessage [], rfl, by simp [step, hpc]⟩
  | next d it erased =>
    cases erased with
    | true => exact absurd ⟨d, it, hpc⟩ h
    | false => exact Or.inr ⟨.checkQueue, rfl, by simp [step, hpc, stepCheckQueue]⟩
  | test d it =>
    refine Or.inr ⟨.checkQueue, rfl, ?_⟩
    cases it <;> simp [step, hpc, stepCheckQueue]
  | tryPop =>
    refine Or.inr ⟨.checkQueue, rfl, ?_⟩
    rw [step, hpc, stepCheckQueue]
    split <;> rfl
  | empty | loop | delete d => exact Or.inr ⟨.checkQueue, rfl, by simp [step, hpc, stepCheckQueue]⟩

/-- A listener that is called is registered, and its turn has just come. -/
theorem Inv.registered {s : Dispatcher Listener ρ} (h : s.Inv) {d : Dispatch Listener ρ}
    {it : Listener} (hpc : s.pc = .call d it) :
    it ∈ s.m_listeners ∧ it ∉ d.calls.map Prod.fst := by
  have hwalking := h.walking
  rw [hpc] at hwalking
  refine ⟨hwalking.2.2, ?_⟩
  intro hmem
  obtain ⟨call, hcall, rfl⟩ := List.mem_map.mp hmem
  exact absurd (before_some.mp (hwalking.1.before call hcall)) (lt_irrefl _)

/-- **Runs whose callbacks keep their own listeners are sound.** -/
theorem sound_of_allSteps [Fintype Listener] {m_listeners : Finset Listener}
    {m_messageQueue : List ρ} {as : List (DispatchAction Listener ρ)} {s : Dispatcher Listener ρ}
    (hok : AllSteps step KeepsItself (init m_listeners m_messageQueue) as)
    (hrun : run step (init m_listeners m_messageQueue) as = some s) :
    Sound m_messageQueue as s := by
  have hinv : s.Intact := run_invariant intact_step (intact_init _ _) hok hrun
  have hquiet : as.flatMap DispatchAction.pushed = [] →
      AllSteps step (fun _ a => a.pushed = []) (init m_listeners m_messageQueue) as := by
    intro hpushed
    exact AllSteps.of_forall (List.flatMap_eq_nil_iff.mp hpushed) _
  refine ⟨hinv.2, run_appends packets_step hrun, ?_, fun d l => hinv.1.registered,
    goesOn_of_not_onErased s hinv.2, ?_, ?_⟩
  · intro d hd l
    exact (hinv.1.finished d hd).count_eq l
  · intro hpushed
    have hle := run_length_add_le (fun t a t' ht _ => inv_step t a t' ht) stepsLeft_lt
      (inv_init _ _) (hquiet hpushed) hrun
    have hinit : (init m_listeners m_messageQueue).stepsLeft =
        m_messageQueue.length * packetCost Listener + 2 := rfl
    omega
  · intro hpushed
    refine run_invariant emptied_step ?_ (hquiet hpushed) hrun
    intro hpc
    cases hpc

/-- **When dispatching survives the callbacks.**  A run of `checkQueue` is sound in all the states
it reaches exactly if no callback in it deregisters the listener it belongs to. -/
theorem sound_iff [Fintype Listener] (m_listeners : Finset Listener) (m_messageQueue : List ρ)
    (as : List (DispatchAction Listener ρ)) :
    (∀ bs s, bs <+: as → run step (init m_listeners m_messageQueue) bs = some s →
        Sound m_messageQueue bs s) ↔
      AllSteps step KeepsItself (init m_listeners m_messageQueue) as := by
  have hsafe : ∀ s : Dispatcher Listener ρ, s.Intact → ¬s.OnErased := fun s hs => hs.2
  have hexact : ∀ (s : Dispatcher Listener ρ) (a : DispatchAction Listener ρ), s.Intact →
      ¬s.KeepsItself a → ∃ s', s.step a = some s' ∧ s'.OnErased :=
    fun s a hs => onErased_of_not_keepsItself s a hs.1
  constructor
  · intro h
    refine (run_safe_iff_of_inv intact_step hsafe hexact (intact_init _ _)).mp ?_
    intro bs s hbs hrun
    exact (h bs s hbs hrun).iterator
  · intro hok bs s hbs hrun
    obtain ⟨cs, rfl⟩ := hbs
    exact sound_of_allSteps hok.of_append hrun

/-- One packet and one listener, which deregisters itself. -/
theorem not_forall_sound :
    ¬∀ (m_listeners : Finset (Fin (2 ^ 32))) (m_messageQueue : List ℕ)
      (as : List (DispatchAction (Fin (2 ^ 32)) ℕ)) (s : Dispatcher (Fin (2 ^ 32)) ℕ),
      run step (init m_listeners m_messageQueue) as = some s → Sound m_messageQueue as s := by
  intro h
  have hsound := h {0x1000} [7] [.checkQueue, .checkQueue, .checkQueue, .checkQueue,
    .processSystemMessage [.deregisterListener 0x1000]] _ rfl
  exact hsound.iterator ⟨_, _, rfl⟩

end Dispatcher

end CppCore.MessageRouter
