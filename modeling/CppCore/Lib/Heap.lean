import CppCore.Lib.Machine
import Mathlib.Data.Finset.Basic
import Mathlib.Logic.Function.Basic

/-!
# Blocks and their owners

A heap has blocks of cells at addresses.  The allocator gives out any address that is free, so one
that was deleted may be used again.  Deleting a block that is not there is a fault.

Objects own blocks, at most one each, and so does the client, who is everything that is no object.
If every block has exactly one owner, none is deleted twice and none is lost.

## Main definitions

* `Heap`, `Heap.delete` — the blocks, and `delete[]`.
* `Owned` — every block has one owner.
* `Owned.store`, `Owned.allocate`, `Owned.discard`, `Owned.adopt`, `Owned.release` — what the client
  and an object do keeps it.
* `Owned.construct`, `Owned.destroy`, `Owned.move` — what objects do on their own.
-/

namespace CppCore.Lib

open Function

universe u v
variable {α : Type u} {ι : Type v}

/-- The blocks of a heap. -/
abbrev Heap (α : Type u) := ℕ → Option (List α)

namespace Heap

/-- `delete[]` of a pointer, which does nothing for the null pointer. -/
def delete (heap : Heap α) : Option ℕ → Exec (Heap α)
  | none => .ok heap
  | some a => if (heap a).isSome then .ok (update heap a none) else .error .outOfBounds

/-- What was deleted is not there any more. -/
theorem eq_none_of_delete {heap heap' : Heap α} {a : ℕ} (h : heap.delete (some a) = .ok heap') :
    heap' a = none := by
  rw [delete] at h
  split at h
  · obtain rfl := Except.ok.inj h
    exact update_self ..
  · cases h

end Heap

/-- Every block has one owner: an object, or the client. -/
structure Owned (heap : Heap α) (owns : ι → Option ℕ) (client : Finset ℕ) : Prop where
  /-- What an object owns is there. -/
  live : ∀ i a, owns i = some a → (heap a).isSome
  /-- What the client owns is there. -/
  held : ∀ a ∈ client, (heap a).isSome
  /-- No two objects own the same. -/
  unique : ∀ i j a, owns i = some a → owns j = some a → i = j
  /-- No object owns what the client does. -/
  apart : ∀ i a, owns i = some a → a ∉ client
  /-- No block is lost. -/
  covered : ∀ a, (heap a).isSome → a ∈ client ∨ ∃ i, owns i = some a

namespace Owned

variable {heap : Heap α} {owns : ι → Option ℕ} {client : Finset ℕ} {i j : ι} {a : ℕ}

/-- At a free address there is nothing that anybody owns. -/
theorem ne_of_free (h : Owned heap owns client) (ha : heap a = none) : owns i ≠ some a := by
  intro hi
  have hlive := h.live i a hi
  rw [ha] at hlive
  cases hlive

theorem not_mem_of_free (h : Owned heap owns client) (ha : heap a = none) : a ∉ client := by
  intro hclient
  have hlive := h.held a hclient
  rw [ha] at hlive
  cases hlive

/-- Storing to a block changes no owner. -/
theorem store (h : Owned heap owns client) (ha : (heap a).isSome) (cells : List α) :
    Owned (update heap a (some cells)) owns client := by
  have hsome : ∀ b, (update heap a (some cells) b).isSome = (heap b).isSome := by
    intro b
    rcases eq_or_ne b a with rfl | hne
    · rw [update_self, ha]
      rfl
    · rw [update_of_ne hne]
  exact ⟨fun i b hi => (hsome b).trans (h.live i b hi), fun b hb => (hsome b).trans (h.held b hb),
    h.unique, h.apart, fun b hb => h.covered b ((hsome b).symm.trans hb)⟩

/-- **The client allocates** a block. -/
theorem allocate (h : Owned heap owns client) (ha : heap a = none) (cells : List α) :
    Owned (update heap a (some cells)) owns (insert a client) where
  live i b hi := by
    have hne : b ≠ a := by
      rintro rfl
      exact h.ne_of_free ha hi
    rw [update_of_ne hne]
    exact h.live i b hi
  held b hb := by
    rcases eq_or_ne b a with rfl | hne
    · rw [update_self]
      rfl
    · rw [update_of_ne hne]
      exact h.held b (Finset.mem_of_mem_insert_of_ne hb hne)
  unique := h.unique
  apart i b hi := by
    have hne : b ≠ a := by
      rintro rfl
      exact h.ne_of_free ha hi
    exact fun hb => h.apart i b hi (Finset.mem_of_mem_insert_of_ne hb hne)
  covered b hb := by
    rcases eq_or_ne b a with rfl | hne
    · exact Or.inl (Finset.mem_insert_self b client)
    · rw [update_of_ne hne] at hb
      exact (h.covered b hb).imp_left Finset.mem_insert_of_mem

/-- **The client deletes** a block. -/
theorem discard (h : Owned heap owns client) (ha : a ∈ client) :
    Owned (update heap a none) owns (client.erase a) where
  live i b hi := by
    have hne : b ≠ a := by
      rintro rfl
      exact h.apart i b hi ha
    rw [update_of_ne hne]
    exact h.live i b hi
  held b hb := by
    obtain ⟨hne, hb⟩ := Finset.mem_erase.mp hb
    rw [update_of_ne hne]
    exact h.held b hb
  unique := h.unique
  apart i b hi := fun hb => h.apart i b hi (Finset.mem_of_mem_erase hb)
  covered b hb := by
    rcases eq_or_ne b a with rfl | hne
    · rw [update_self] at hb
      cases hb
    · rw [update_of_ne hne] at hb
      exact (h.covered b hb).imp_left fun hb => Finset.mem_erase.mpr ⟨hne, hb⟩

variable [DecidableEq ι]

/-- **An object takes over** a block of the client. -/
theorem adopt (h : Owned heap owns client) (hi : owns i = none) (ha : a ∈ client) :
    Owned heap (update owns i (some a)) (client.erase a) where
  live j b hj := by
    rcases eq_or_ne j i with rfl | hne
    · rw [update_self] at hj
      exact Option.some.inj hj ▸ h.held a ha
    · rw [update_of_ne hne] at hj
      exact h.live j b hj
  held b hb := h.held b (Finset.mem_of_mem_erase hb)
  unique j k b hj hk := by
    have hother : ∀ j, j ≠ i → update owns i (some a) j = some b → b ≠ a := by
      rintro j hne hj rfl
      rw [update_of_ne hne] at hj
      exact h.apart j b hj ha
    rcases eq_or_ne j i with rfl | hji
    · rw [update_self] at hj
      obtain rfl := Option.some.inj hj
      by_contra hne
      exact hother k (Ne.symm hne) hk rfl
    · rcases eq_or_ne k i with rfl | hki
      · rw [update_self] at hk
        obtain rfl := Option.some.inj hk
        exact absurd rfl (hother j hji hj)
      · rw [update_of_ne hji] at hj
        rw [update_of_ne hki] at hk
        exact h.unique j k b hj hk
  apart j b hj := by
    rcases eq_or_ne j i with rfl | hne
    · rw [update_self] at hj
      obtain rfl := Option.some.inj hj
      exact Finset.notMem_erase a client
    · rw [update_of_ne hne] at hj
      exact fun hb => h.apart j b hj (Finset.mem_of_mem_erase hb)
  covered b hb := by
    rcases eq_or_ne b a with rfl | hne
    · exact Or.inr ⟨i, update_self ..⟩
    · rcases h.covered b hb with hb | ⟨j, hj⟩
      · exact Or.inl (Finset.mem_erase.mpr ⟨hne, hb⟩)
      · refine Or.inr ⟨j, ?_⟩
        rw [update_of_ne]
        · exact hj
        · rintro rfl
          rw [hi] at hj
          cases hj

/-- **An object gives its block** to the client. -/
theorem release (h : Owned heap owns client) (hi : owns i = some a) :
    Owned heap (update owns i none) (insert a client) where
  live j b hj := by
    rcases eq_or_ne j i with rfl | hne
    · rw [update_self] at hj
      cases hj
    · rw [update_of_ne hne] at hj
      exact h.live j b hj
  held b hb := by
    rcases Finset.mem_insert.mp hb with rfl | hb
    · exact h.live i b hi
    · exact h.held b hb
  unique j k b hj hk := by
    rcases eq_or_ne j i with rfl | hji
    · rw [update_self] at hj
      cases hj
    · rcases eq_or_ne k i with rfl | hki
      · rw [update_self] at hk
        cases hk
      · rw [update_of_ne hji] at hj
        rw [update_of_ne hki] at hk
        exact h.unique j k b hj hk
  apart j b hj := by
    rcases eq_or_ne j i with rfl | hne
    · rw [update_self] at hj
      cases hj
    · rw [update_of_ne hne] at hj
      rw [Finset.mem_insert, not_or]
      refine ⟨?_, h.apart j b hj⟩
      rintro rfl
      exact hne (h.unique j i b hj hi)
  covered b hb := by
    rcases eq_or_ne b a with rfl | hne
    · exact Or.inl (Finset.mem_insert_self b client)
    · rcases h.covered b hb with hb | ⟨j, hj⟩
      · exact Or.inl (Finset.mem_insert_of_mem hb)
      · refine Or.inr ⟨j, ?_⟩
        rw [update_of_ne]
        · exact hj
        · rintro rfl
          exact hne (Option.some.inj (hj.symm.trans hi))

/-- **An object allocates** a block of its own. -/
theorem construct (h : Owned heap owns client) (hi : owns i = none) (ha : heap a = none)
    (cells : List α) : Owned (update heap a (some cells)) (update owns i (some a)) client := by
  have hadopt := (h.allocate ha cells).adopt hi (Finset.mem_insert_self a client)
  rwa [Finset.erase_insert (h.not_mem_of_free ha)] at hadopt

/-- **An object deletes** its block, and there is one to delete. -/
theorem destroy (h : Owned heap owns client) (p : Option ℕ) (hi : owns i = p) :
    ∃ heap', heap.delete p = .ok heap' ∧ Owned heap' (update owns i none) client ∧
      ∀ b, p ≠ some b → heap' b = heap b := by
  cases p with
  | none =>
    refine ⟨heap, rfl, ?_, fun _ _ => rfl⟩
    rwa [← hi, update_eq_self]
  | some a =>
    have hdiscard := (h.release hi).discard (Finset.mem_insert_self a client)
    rw [Finset.erase_insert (h.apart i a hi)] at hdiscard
    refine ⟨update heap a none, if_pos (h.live i a hi), hdiscard, fun b hb => update_of_ne ?_ _ _⟩
    rintro rfl
    exact hb rfl

/-- **An object gives what it owns** to another one, which owns nothing. -/
theorem move (h : Owned heap owns client) (hj : owns j = none) (hne : j ≠ i) :
    Owned heap (update (update owns i none) j (owns i)) client := by
  cases hi : owns i with
  | none =>
    rw [← hi, update_eq_self, hi, ← hj, update_eq_self]
    exact h
  | some a =>
    have hnone : update owns i none j = none := by rwa [update_of_ne hne]
    have hadopt := (h.release hi).adopt hnone (Finset.mem_insert_self a client)
    rwa [Finset.erase_insert (h.apart i a hi)] at hadopt

end Owned

end CppCore.Lib
