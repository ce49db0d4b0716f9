import Mathlib.Data.Set.Card
import Mathlib.Logic.Function.Basic

/-!
# Threads behind a mutex

Threads are a place for each of any number of them.  Some places need a mutex, and some know a
fact about the data it protects: what a thread has seen with the mutex stays true until it
releases it.  `Guarded` says so of a state, and three lemmas say what a step of one thread has to
show for it: one for a thread that goes on, one for taking the mutex and one for releasing it.

The number of the threads at a kind of place changes by one, or not at all, when one of them moves.

## Main definitions

* `Guarded` — the threads that need the mutex have it, and what they know is true.
* `Guarded.goto`, `Guarded.acquire`, `Guarded.release` — a step of one thread keeps that.
* `number` — how many threads are at a kind of place.
* `number_congr`, `number_enter`, `number_leave` — how a step of one thread changes it.
-/

namespace CppCore.Lib

open Function

universe u v w
variable {ι : Type u} {κ : Type v} {δ : Type w} {threads : ι → κ} {i : ι} {pc : κ}

/-! ## What the threads know -/

/-- The threads that need the mutex have it, and what they know about the data is true. -/
structure Guarded (Holds : κ → Prop) (Knows : κ → δ → Prop) (owner : Option ι) (threads : ι → κ)
    (data : δ) : Prop where
  /-- The threads that need the mutex are its owner. -/
  mutex : ∀ i, Holds (threads i) ↔ owner = some i
  /-- What a thread knows is true. -/
  knows : ∀ i, Knows (threads i) data

variable {Holds : κ → Prop} {Knows : κ → δ → Prop} {owner : Option ι} {data data' : δ}

/-- The owner is the only thread that needs the mutex. -/
theorem Guarded.eq_of_holds (h : Guarded Holds Knows owner threads data) {j : ι}
    (hi : Holds (threads i)) (hj : Holds (threads j)) : i = j :=
  Option.some.inj (((h.mutex i).mp hi).symm.trans ((h.mutex j).mp hj))

/-- A free mutex is needed by nobody. -/
theorem Guarded.not_holds (h : Guarded Holds Knows none threads data) (i : ι) :
    ¬Holds (threads i) := by
  intro hi
  cases (h.mutex i).mp hi

variable [DecidableEq ι]

/-- **A thread goes on.**  Only the owner of the mutex may change the data. -/
theorem Guarded.goto (h : Guarded Holds Knows owner threads data)
    (hfree : ∀ pc d, ¬Holds pc → Knows pc d) (hholds : Holds pc ↔ Holds (threads i))
    (hdata : data' = data ∨ Holds (threads i)) (hknows : Knows pc data') :
    Guarded Holds Knows owner (update threads i pc) data' where
  mutex j := by
    by_cases hj : j = i
    · subst hj
      rw [update_self, hholds]
      exact h.mutex j
    · rw [update_of_ne hj]
      exact h.mutex j
  knows j := by
    by_cases hj : j = i
    · subst hj
      rwa [update_self]
    · rw [update_of_ne hj]
      rcases hdata with rfl | hi
      · exact h.knows j
      · exact hfree _ _ fun hholds => hj (h.eq_of_holds hholds hi)

/-- **A thread takes the mutex**, if it is free. -/
theorem Guarded.acquire (h : Guarded Holds Knows none threads data) (hholds : Holds pc)
    (hknows : Knows pc data) : Guarded Holds Knows (some i) (update threads i pc) data where
  mutex j := by
    by_cases hj : j = i
    · subst hj
      rw [update_self]
      exact iff_of_true hholds rfl
    · rw [update_of_ne hj]
      exact iff_of_false (h.not_holds j) fun hij => hj (Option.some.inj hij).symm
  knows j := by
    by_cases hj : j = i
    · subst hj
      rwa [update_self]
    · rw [update_of_ne hj]
      exact h.knows j

/-- **The owner releases the mutex.** -/
theorem Guarded.release (h : Guarded Holds Knows owner threads data)
    (hfree : ∀ pc d, ¬Holds pc → Knows pc d) (hi : Holds (threads i)) (hholds : ¬Holds pc) :
    Guarded Holds Knows none (update threads i pc) data' where
  mutex j := by
    by_cases hj : j = i
    · subst hj
      rw [update_self]
      exact iff_of_false hholds nofun
    · rw [update_of_ne hj]
      exact iff_of_false (fun hholds => hj (h.eq_of_holds hholds hi)) nofun
  knows j := by
    by_cases hj : j = i
    · subst hj
      rw [update_self]
      exact hfree _ _ hholds
    · rw [update_of_ne hj]
      exact hfree _ _ fun hholds => hj (h.eq_of_holds hholds hi)

/-! ## How many threads are where -/

/-- How many threads are at a kind of place. -/
noncomputable def number {ι : Type u} (P : κ → Prop) (threads : ι → κ) : ℕ∞ :=
  {i | P (threads i)}.encard

variable {P : κ → Prop}

omit [DecidableEq ι] in
theorem number_eq_zero : number P threads = 0 ↔ ∀ i, ¬P (threads i) := by
  rw [number, Set.encard_eq_zero, Set.eq_empty_iff_forall_notMem]
  rfl

omit [DecidableEq ι] in
theorem pos_of_number {n : ℕ} (h : number P threads = n) (hi : P (threads i)) : 0 < n := by
  have hpos : 0 < number P threads := Set.encard_pos.mpr ⟨i, hi⟩
  rw [h] at hpos
  exact_mod_cast hpos

omit [DecidableEq ι] in
theorem exists_of_number {n : ℕ} (h : number P threads = n) (hn : n ≠ 0) : ∃ i, P (threads i) := by
  have hne : number P threads ≠ 0 := by
    rw [h]
    exact_mod_cast hn
  exact Set.encard_ne_zero.mp hne

omit [DecidableEq ι] in
/-- Where at most one thread is, any two are the same. -/
theorem eq_of_number_le_one (h : number P threads ≤ 1) {j : ι} (hi : P (threads i))
    (hj : P (threads j)) : i = j := Set.encard_le_one_iff.mp h i j hi hj

/-- The other threads stay where they are. -/
theorem number_congr (h : P pc ↔ P (threads i)) :
    number P (update threads i pc) = number P threads := by
  refine congrArg Set.encard (Set.ext fun j => ?_)
  by_cases hj : j = i
  · subst hj
    simpa using h
  · simp [update_of_ne hj]

/-- One more thread. -/
theorem number_enter {n : ℕ} (h : number P threads = n) (hold : ¬P (threads i)) (hnew : P pc) :
    number P (update threads i pc) = (n + 1 : ℕ) := by
  have hset : {j | P (update threads i pc j)} = insert i {j | P (threads j)} := by
    ext j
    by_cases hj : j = i
    · subst hj
      simpa using hnew
    · simp [hj]
  rw [number, hset, Set.encard_insert_of_notMem (by simpa using hold), ← number, h]
  rfl

/-- One thread less. -/
theorem number_leave {n : ℕ} (h : number P threads = n) (hold : P (threads i)) (hnew : ¬P pc) :
    number P (update threads i pc) = (n - 1 : ℕ) := by
  have hfinite : (number P (update threads i pc)) ≠ ⊤ := by
    refine ne_top_of_le_ne_top (h ▸ ENat.natCast_ne_top n) (Set.encard_le_encard fun j hj => ?_)
    by_cases hji : j = i
    · subst hji
      exact hold
    · simpa [hji] using hj
  obtain ⟨m, hm⟩ := ENat.ne_top_iff_exists.mp hfinite
  have hback : number P (update (update threads i pc) i (threads i)) = (m + 1 : ℕ) :=
    number_enter hm.symm (by rwa [update_self]) hold
  rw [update_idem, update_eq_self, h, Nat.cast_inj] at hback
  rw [← hm, hback, Nat.add_sub_cancel]

/-- Somebody is at a kind of place still, if nobody left it. -/
theorem exists_update {Q : ι → κ → Prop} (h : ∃ k, Q k (threads k))
    (hi : Q i (threads i) → Q i pc) : ∃ k, Q k (update threads i pc k) := by
  obtain ⟨k, hk⟩ := h
  by_cases hki : k = i
  · subst hki
    exact ⟨k, by rw [update_self]; exact hi hk⟩
  · exact ⟨k, by rwa [update_of_ne hki]⟩

end CppCore.Lib
