import Mathlib.Data.List.Nodup
import Mathlib.Data.List.Perm.Basic

/-!
# Runs of a transition system

A system is a partial step function: an action is either impossible in a state or leads to one
next state, so a schedule, a list of actions, determines the run.  Threads, peers and everything
else a program cannot control are in the choice of the schedule.

Jobs in progress are a list in which every job has a key of its own; a step changes or finishes
the job at a position.

## Main definitions

* `run` — the state a schedule leads to.
* `AllSteps` — a condition holds of every step of a run.
* `run_invariant` — what every step allowed by a condition preserves holds after a run of them.
* `run_simulates` — what every step does in another system, a run does.
* `run_safe_iff_of_inv`, `run_safe_iff` — the same for a condition that is exact.
* `run_appends` — what every step appends, a run appends.
* `run_length_add_le` — a run is no longer than a measure goes down.
* `AllSteps.iff_of_inv` — conditions that agree under an invariant.
* `mem_eraseIdx_iff`, `mem_set_of_ne`, `map_set_of_key` — finishing and changing a job.
* `countP_eq_eraseIdx`, `countP_set_eq` — counting jobs.
-/

namespace CppCore.Lib

universe u v
variable {σ : Type u} {α : Type v} (step : σ → α → Option σ)

/-- The state a schedule leads to, if every action in it is possible. -/
def run : σ → List α → Option σ
  | s, [] => some s
  | s, a :: as => (step s a).bind fun s' => run s' as

/-- Every step of the run of a schedule is one `ok` allows. -/
def AllSteps (ok : σ → α → Prop) : σ → List α → Prop
  | _, [] => True
  | s, a :: as => ok s a ∧ ∀ s' ∈ step s a, AllSteps ok s' as

instance AllSteps.decidable (ok : σ → α → Prop) [∀ s a, Decidable (ok s a)] :
    ∀ s as, Decidable (AllSteps step ok s as)
  | _, [] => isTrue trivial
  | s, a :: as =>
    have : ∀ s', Decidable (AllSteps step ok s' as) := fun s' => AllSteps.decidable ok s' as
    inferInstanceAs (Decidable (ok s a ∧ ∀ s' ∈ step s a, AllSteps step ok s' as))

variable {step}

theorem run_append (s : σ) (as bs : List α) :
    run step s (as ++ bs) = (run step s as).bind fun s' => run step s' bs := by
  induction as generalizing s with
  | nil => rfl
  | cons a as ih =>
    rw [List.cons_append, run, run]
    cases step s a with
    | none => rfl
    | some s' => exact ih s'

/-- A condition on actions alone holds of every step if it holds of the schedule. -/
theorem AllSteps.of_forall {ok : α → Prop} {as : List α} (h : ∀ a ∈ as, ok a) (s : σ) :
    AllSteps step (fun _ => ok) s as := by
  induction as generalizing s with
  | nil => trivial
  | cons a as ih =>
    exact ⟨h a (by simp), fun s' _ => ih (fun b hb => h b (List.mem_cons_of_mem a hb)) s'⟩

/-- **The invariant rule for runs under a condition.** -/
theorem run_invariant {ok : σ → α → Prop} {Inv : σ → Prop}
    (hstep : ∀ s a s', Inv s → ok s a → step s a = some s' → Inv s') {s s' : σ} {as : List α}
    (hinit : Inv s) (hok : AllSteps step ok s as) (hrun : run step s as = some s') : Inv s' := by
  induction as generalizing s with
  | nil => exact Option.some.inj hrun ▸ hinit
  | cons a as ih =>
    rw [run, Option.bind_eq_some_iff] at hrun
    obtain ⟨t, hst, hrun⟩ := hrun
    exact ih (hstep s a t hinit hok.1 hst) (hok.2 t hst) hrun

/-- **The simulation rule**: where every allowed step is one of another system, seen through a
function, an allowed run is one of that system. -/
theorem run_simulates {τ : Type*} {step' : τ → α → Option τ} {f : σ → τ} {ok : σ → α → Prop}
    {Inv : σ → Prop} (hstep : ∀ s a s', Inv s → ok s a → step s a = some s' → Inv s')
    (hsim : ∀ s a s', Inv s → ok s a → step s a = some s' → step' (f s) a = some (f s'))
    {s s' : σ} {as : List α} (hinit : Inv s) (hok : AllSteps step ok s as)
    (hrun : run step s as = some s') : run step' (f s) as = some (f s') := by
  induction as generalizing s with
  | nil => exact congrArg (some ∘ f) (Option.some.inj hrun)
  | cons a as ih =>
    rw [run, Option.bind_eq_some_iff] at hrun
    obtain ⟨t, hst, hrun⟩ := hrun
    rw [run, hsim s a t hinit hok.1 hst]
    exact ih (hstep s a t hinit hok.1 hst) (hok.2 t hst) hrun

/-- A beginning of a run whose steps are allowed is one. -/
theorem AllSteps.of_append {ok : σ → α → Prop} {s : σ} {as bs : List α}
    (h : AllSteps step ok s (as ++ bs)) : AllSteps step ok s as := by
  induction as generalizing s with
  | nil => trivial
  | cons a as ih => exact ⟨h.1, fun s' hs' => ih (h.2 s' hs')⟩

/-- **The invariant rule for an exact condition.**  When every step that the condition forbids
leads from a state with the invariant to a bad one, a run meets no bad state exactly if all of its
steps are allowed. -/
theorem run_safe_iff_of_inv {ok : σ → α → Prop} {Inv Bad : σ → Prop}
    (hstep : ∀ s a s', Inv s → ok s a → step s a = some s' → Inv s') (hsafe : ∀ s, Inv s → ¬Bad s)
    (hexact : ∀ s a, Inv s → ¬ok s a → ∃ s', step s a = some s' ∧ Bad s') {s : σ} {as : List α}
    (hinit : Inv s) :
    (∀ bs t, bs <+: as → run step s bs = some t → ¬Bad t) ↔ AllSteps step ok s as := by
  constructor
  · intro h
    induction as generalizing s with
    | nil => trivial
    | cons a as ih =>
      have hok : ok s a := by
        by_contra hnot
        obtain ⟨s', hs', hbad⟩ := hexact s a hinit hnot
        exact h [a] s' ⟨as, rfl⟩ (by simp [run, hs']) hbad
      refine ⟨hok, fun s' hs' => ih (hstep s a s' hinit hok hs') fun bs t hbs hrun => ?_⟩
      obtain ⟨cs, rfl⟩ := hbs
      exact h (a :: bs) t ⟨cs, rfl⟩ (by rw [run, hs']; exact hrun)
  · rintro hall bs t ⟨cs, rfl⟩ hrun
    exact hsafe t (run_invariant hstep hinit hall.of_append hrun)

/-- The same where a forbidden step leads to a bad state from any state. -/
theorem run_safe_iff {ok : σ → α → Prop} {Inv Bad : σ → Prop}
    (hstep : ∀ s a s', Inv s → ok s a → step s a = some s' → Inv s') (hsafe : ∀ s, Inv s → ¬Bad s)
    (hexact : ∀ s a, ¬ok s a → ∃ s', step s a = some s' ∧ Bad s') {s : σ} {as : List α}
    (hinit : Inv s) :
    (∀ bs t, bs <+: as → run step s bs = some t → ¬Bad t) ↔ AllSteps step ok s as :=
  run_safe_iff_of_inv hstep hsafe (fun s a _ => hexact s a) hinit

/-- **What the steps append** to an observation, a run appends. -/
theorem run_appends {β : Type*} {out : α → List β} {obs : σ → List β}
    (hstep : ∀ s a s', step s a = some s' → obs s' = obs s ++ out a) {s s' : σ} {as : List α}
    (hrun : run step s as = some s') : obs s' = obs s ++ as.flatMap out := by
  induction as generalizing s with
  | nil =>
    obtain rfl := Option.some.inj hrun
    simp
  | cons a as ih =>
    rw [run, Option.bind_eq_some_iff] at hrun
    obtain ⟨t, hst, hrun⟩ := hrun
    rw [ih hrun, hstep s a t hst, List.flatMap_cons, List.append_assoc]

/-- **The termination rule**: where every allowed step makes a measure smaller, a run is no longer
than what the measure has gone down by. -/
theorem run_length_add_le {ok : σ → α → Prop} {Inv : σ → Prop} {measure : σ → ℕ}
    (hstep : ∀ s a s', Inv s → ok s a → step s a = some s' → Inv s')
    (hless : ∀ s a s', Inv s → ok s a → step s a = some s' → measure s' < measure s) {s s' : σ}
    {as : List α} (hinit : Inv s) (hok : AllSteps step ok s as) (hrun : run step s as = some s') :
    as.length + measure s' ≤ measure s := by
  induction as generalizing s with
  | nil =>
    obtain rfl := Option.some.inj hrun
    simp
  | cons a as ih =>
    rw [run, Option.bind_eq_some_iff] at hrun
    obtain ⟨t, hst, hrun⟩ := hrun
    have hle := ih (hstep s a t hinit hok.1 hst) (hok.2 t hst) hrun
    have hlt := hless s a t hinit hok.1 hst
    rw [List.length_cons]
    omega

/-- **Two conditions that agree where an invariant holds** hold of the same runs, if one of them
keeps the invariant. -/
theorem AllSteps.iff_of_inv {P ok : σ → α → Prop} {Inv : σ → Prop}
    (hstep : ∀ s a s', Inv s → ok s a → step s a = some s' → Inv s')
    (hiff : ∀ s a, Inv s → (P s a ↔ ok s a)) {s : σ} {as : List α} (hinit : Inv s) :
    AllSteps step P s as ↔ AllSteps step ok s as := by
  induction as generalizing s with
  | nil => exact Iff.rfl
  | cons a as ih =>
    rw [AllSteps, AllSteps, hiff s a hinit]
    exact and_congr_right fun hok => forall₂_congr fun s' hs' => ih (hstep s a s' hinit hok hs')

/-! ## Jobs in progress -/

variable {κ : Type v} (key : α → κ) {l : List α} {i : ℕ} {a : α}

/-- Jobs with the same key are the same. -/
theorem eq_of_key {key : α → κ} (hkeys : (l.map key).Nodup) {x y : α} (hx : x ∈ l) (hy : y ∈ l)
    (h : key x = key y) : x = y := List.inj_on_of_nodup_map hkeys hx hy h

/-- The jobs left when the one at a position is finished. -/
theorem mem_eraseIdx_iff {key : α → κ} (hkeys : (l.map key).Nodup) (ha : l[i]? = some a) {x : α} :
    x ∈ l.eraseIdx i ↔ x ∈ l ∧ key x ≠ key a := by
  obtain ⟨hi, rfl⟩ := List.getElem?_eq_some_iff.mp ha
  rw [List.mem_eraseIdx_iff_getElem]
  constructor
  · rintro ⟨j, hj, hne, rfl⟩
    refine ⟨List.getElem_mem hj, fun h => hne ?_⟩
    have hi' : i < (l.map key).length := by simpa using hi
    have hj' : j < (l.map key).length := by simpa using hj
    have hij : (l.map key)[j] = (l.map key)[i] := by simpa using h
    exact (List.Nodup.getElem_inj_iff hkeys).mp hij
  · rintro ⟨hx, hne⟩
    obtain ⟨j, hj, rfl⟩ := List.getElem_of_mem hx
    exact ⟨j, hj, fun h => hne (by simp [h]), rfl⟩

/-- The other jobs stay when one is finished. -/
theorem mem_eraseIdx_of_ne (ha : l[i]? = some a) {x : α} (hx : x ∈ l) (hne : x ≠ a) :
    x ∈ l.eraseIdx i := by
  obtain ⟨hi, rfl⟩ := List.getElem?_eq_some_iff.mp ha
  obtain ⟨j, hj, rfl⟩ := List.getElem_of_mem hx
  exact List.mem_eraseIdx_iff_getElem.mpr ⟨j, hj, fun h => hne (by simp [h]), rfl⟩

/-- The keys of the jobs left are still distinct. -/
theorem nodup_eraseIdx {key : α → κ} (hkeys : (l.map key).Nodup) : ((l.eraseIdx i).map key).Nodup :=
  hkeys.sublist ((List.eraseIdx_sublist l i).map key)

/-- Changing a job without changing its key keeps the keys. -/
theorem map_set_of_key (ha : l[i]? = some a) {b : α} (h : key b = key a) :
    (l.set i b).map key = l.map key := by
  obtain ⟨hi, rfl⟩ := List.getElem?_eq_some_iff.mp ha
  have hi' : i < (l.map key).length := by simpa using hi
  have hself : (l.map key).set i (l.map key)[i] = l.map key := List.set_getElem_self hi'
  rwa [List.getElem_map, ← h, ← List.map_set] at hself

/-- The other jobs stay when one is changed. -/
theorem mem_set_of_ne (ha : l[i]? = some a) {b x : α} (hx : x ∈ l) (hne : x ≠ a) :
    x ∈ l.set i b := by
  obtain ⟨hi, rfl⟩ := List.getElem?_eq_some_iff.mp ha
  obtain ⟨j, hj, rfl⟩ := List.getElem_of_mem hx
  have hij : i ≠ j := fun h => hne (by simp [h])
  exact List.mem_iff_getElem.mpr ⟨j, by simpa using hj, by rw [List.getElem_set_ne hij]⟩

/-- A job among those where one was changed is that one or another. -/
theorem mem_set_iff_eraseIdx (ha : l[i]? = some a) {b x : α} :
    x ∈ l.set i b ↔ x = b ∨ x ∈ l.eraseIdx i := by
  have hperm := List.set_perm_cons_eraseIdx (List.getElem?_eq_some_iff.mp ha).1 b
  rw [hperm.mem_iff, List.mem_cons]

/-- Counting the jobs where one is changed. -/
theorem countP_set_eq (p : α → Bool) (ha : l[i]? = some a) (b : α) :
    (l.set i b).countP p = (l.eraseIdx i).countP p + (p b).toNat := by
  have hperm := List.set_perm_cons_eraseIdx (List.getElem?_eq_some_iff.mp ha).1 b
  rw [hperm.countP_eq, List.countP_cons]
  cases p b <;> rfl

/-- Counting the jobs with one of them apart. -/
theorem countP_eq_eraseIdx (p : α → Bool) (ha : l[i]? = some a) :
    l.countP p = (l.eraseIdx i).countP p + (p a).toNat := by
  have hself : l.set i a = l := by
    obtain ⟨hi, rfl⟩ := List.getElem?_eq_some_iff.mp ha
    exact List.set_getElem_self hi
  rw [← countP_set_eq p ha a, hself]

end CppCore.Lib
