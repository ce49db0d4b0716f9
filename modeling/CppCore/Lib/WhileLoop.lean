import CppCore.Lib.Machine

/-!
# While loops

A loop whose end nobody has proved is given fuel.  It halts if some amount of fuel is enough, and
then no fault has occurred in its body.

## Main definitions

* `whileLoop` — a guard and a body, as long as the fuel lasts.
* `Halts` — the loop ends without a fault.
* `halts_iff_of_guard` — one iteration.
* `not_halts_of_inv` — a loop whose body keeps an invariant under which the guard holds does not.
-/

namespace CppCore.Lib

universe u
variable {σ : Type u}

/-- `while ( guard ) body`. -/
def whileLoop (guard : σ → Bool) (body : σ → Exec σ) : ℕ → σ → Exec σ
  | 0, _ => .error .outOfFuel
  | fuel + 1, s => if guard s then body s >>= whileLoop guard body fuel else .ok s

variable {guard : σ → Bool} {body : σ → Exec σ} {s : σ}

/-- Some amount of fuel is enough. -/
def Halts (guard : σ → Bool) (body : σ → Exec σ) (s : σ) : Prop :=
  ∃ fuel s', whileLoop guard body fuel s = .ok s'

/-- An iteration. -/
theorem whileLoop_succ_of_guard (h : guard s = true) (fuel : ℕ) :
    whileLoop guard body (fuel + 1) s = body s >>= whileLoop guard body fuel := by
  rw [whileLoop, if_pos h]

/-- Where the guard fails the loop is over. -/
theorem halts_of_not_guard (h : guard s = false) : Halts guard body s :=
  ⟨1, s, by simp [whileLoop, h]⟩

/-- **One iteration**: a loop goes on to halt exactly if its body has no fault and it halts from
there. -/
theorem halts_iff_of_guard (h : guard s = true) :
    Halts guard body s ↔ ∃ s', body s = .ok s' ∧ Halts guard body s' := by
  constructor
  · rintro ⟨fuel, t, hrun⟩
    cases fuel with
    | zero => cases hrun
    | succ fuel =>
      rw [whileLoop_succ_of_guard h] at hrun
      obtain ⟨s', hbody, hrest⟩ := Exec.bind_eq_ok.mp hrun
      exact ⟨s', hbody, fuel, t, hrest⟩
  · rintro ⟨s', hbody, fuel, t, hrest⟩
    refine ⟨fuel + 1, t, ?_⟩
    rw [whileLoop_succ_of_guard h, hbody, Exec.ok_bind, hrest]

/-- A loop ends where its guard fails. -/
theorem guard_of_whileLoop {fuel : ℕ} {t : σ} (h : whileLoop guard body fuel s = .ok t) :
    guard t = false := by
  induction fuel generalizing s with
  | zero => cases h
  | succ fuel ih =>
    rw [whileLoop] at h
    split at h
    · obtain ⟨s', _, hrest⟩ := Exec.bind_eq_ok.mp h
      exact ih hrest
    · rename_i hguard
      obtain rfl := Except.ok.inj h
      simpa using hguard

/-- **Divergence**: an invariant of the body under which the guard holds is never left. -/
theorem not_halts_of_inv {I : σ → Prop} (hguard : ∀ s, I s → guard s = true)
    (hbody : ∀ s s', I s → body s = .ok s' → I s') (hs : I s) : ¬Halts guard body s := by
  rintro ⟨fuel, t, hrun⟩
  induction fuel generalizing s with
  | zero => cases hrun
  | succ fuel ih =>
    rw [whileLoop_succ_of_guard (hguard s hs)] at hrun
    obtain ⟨s', hnext, hrest⟩ := Exec.bind_eq_ok.mp hrun
    exact ih (hbody s s' hs hnext) hrest

end CppCore.Lib
