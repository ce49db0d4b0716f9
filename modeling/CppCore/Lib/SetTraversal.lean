import Mathlib.Data.Finset.Max
import Mathlib.Data.List.Nodup

/-!
# Walking through an ordered set that changes

An iterator of an ordered set is the key it stands at, or the end.  A walk visits the key of its
iterator, and each visit may leave another set behind; the iterator then goes on to the next greater
key of that set.  A key whose turn comes is visited exactly when it is in the set at that time.

## Main definitions

* `firstKey`, `nextKey` — the first iterator of a set, and the one behind a key.
* `setAt`, `setNow` — the set at the turn of a key; the set after the last visit.
* `Visited` — a walk has come to an iterator and visited what it should.
* `Visited.nil`, `Visited.concat` — a walk begins, and goes on by one visit.
* `Visited.count_eq` — what a finished walk has visited, and how often.
-/

namespace CppCore.Lib

universe u
variable {κ : Type u}

/-- The set after the last visit.  A visit is the key and the set it leaves. -/
def setNow (begun : Finset κ) (visits : List (κ × Finset κ)) : Finset κ :=
  visits.foldl (fun _ v => v.2) begun

@[simp] theorem setNow_nil (begun : Finset κ) : setNow begun [] = begun := rfl
@[simp] theorem setNow_concat (begun : Finset κ) (visits : List (κ × Finset κ))
    (v : κ × Finset κ) : setNow begun (visits ++ [v]) = v.2 := by
  simp [setNow]

variable [LinearOrder κ]

/-! ## Iterators -/

/-- The iterator at the least key; `none` is the end. -/
def firstKey (s : Finset κ) : Option κ := if h : s.Nonempty then some (s.min' h) else none

/-- The iterator at the least key greater than `k`. -/
def nextKey (s : Finset κ) (k : κ) : Option κ := firstKey (s.filter (k < ·))

/-- The key `k` stands before the iterator. -/
def Before (k : κ) (it : Option κ) : Prop := ∀ l ∈ it, k < l

@[simp] theorem before_none (k : κ) : Before k none := by simp [Before]
@[simp] theorem before_some {k l : κ} : Before k (some l) ↔ k < l := by simp [Before]

/-- An iterator stands at a key of the set. -/
theorem mem_of_firstKey {s : Finset κ} {k : κ} (h : k ∈ firstKey s) : k ∈ s := by
  rw [firstKey] at h
  split at h
  · rename_i hs
    obtain rfl := Option.some.inj h
    exact s.min'_mem hs
  · cases h

/-- No key of the set stands before the first iterator. -/
theorem notMem_of_before_firstKey {s : Finset κ} {k : κ} (h : Before k (firstKey s)) : k ∉ s := by
  intro hk
  have hs : s.Nonempty := ⟨k, hk⟩
  rw [firstKey, dif_pos hs, before_some] at h
  exact absurd (s.min'_le k hk) (not_le.mpr h)

/-- The next iterator stands at a greater key of the set. -/
theorem mem_of_nextKey {s : Finset κ} {k l : κ} (h : l ∈ nextKey s k) : l ∈ s ∧ k < l :=
  Finset.mem_filter.mp (mem_of_firstKey h)

/-- Between a key and the next iterator the set has no keys. -/
theorem notMem_of_before_nextKey {s : Finset κ} {k l : κ} (hl : k < l)
    (h : Before l (nextKey s k)) : l ∉ s := by
  intro hmem
  exact notMem_of_before_firstKey h (Finset.mem_filter.mpr ⟨hmem, hl⟩)

/-- A key stands before the iterator behind it. -/
theorem before_nextKey (s : Finset κ) (k : κ) : Before k (nextKey s k) :=
  fun _ hl => (mem_of_nextKey hl).2

/-! ## Walks -/

/-- The set at the turn of `k`: what the last visit to a smaller key left. -/
def setAt (begun : Finset κ) (visits : List (κ × Finset κ)) (k : κ) : Finset κ :=
  visits.foldl (fun s v => if v.1 < k then v.2 else s) begun

theorem setAt_concat (begun : Finset κ) (visits : List (κ × Finset κ)) (v : κ × Finset κ) (k : κ) :
    setAt begun (visits ++ [v]) k = if v.1 < k then v.2 else setAt begun visits k := by
  simp [setAt]

/-- The turn of a key comes after all smaller ones. -/
theorem setAt_eq_setNow {begun : Finset κ} {visits : List (κ × Finset κ)} {k : κ}
    (h : ∀ v ∈ visits, v.1 < k) : setAt begun visits k = setNow begun visits := by
  induction visits using List.reverseRecOn with
  | nil => rfl
  | append_singleton visits v _ =>
    rw [setAt_concat, if_pos (h v (by simp)), setNow_concat]

/-- A walk has come to the iterator: it has visited keys in their order, each once, and of those
before the iterator the ones that were in the set at their turn. -/
structure Visited (begun : Finset κ) (visits : List (κ × Finset κ)) (it : Option κ) : Prop where
  /-- The keys visited are in order. -/
  sorted : (visits.map Prod.fst).Pairwise (· < ·)
  /-- They stand before the iterator. -/
  before : ∀ v ∈ visits, Before v.1 it
  /-- They are those of the set. -/
  visited_iff : ∀ k, Before k it → (k ∈ visits.map Prod.fst ↔ k ∈ setAt begun visits k)

/-- A walk begins at the first key. -/
theorem Visited.nil (begun : Finset κ) : Visited begun [] (firstKey begun) where
  sorted := List.Pairwise.nil
  before := by simp
  visited_iff k hk := by
    have hnot : k ∉ begun := notMem_of_before_firstKey hk
    simpa [setAt] using hnot

/-- **A walk goes on by one visit**, whatever set the visit leaves. -/
theorem Visited.concat {begun : Finset κ} {visits : List (κ × Finset κ)} {k : κ}
    (h : Visited begun visits (some k)) (hk : k ∈ setNow begun visits) (s : Finset κ) :
    Visited begun (visits ++ [(k, s)]) (nextKey s k) where
  sorted := by
    rw [List.map_append, List.pairwise_append]
    refine ⟨h.sorted, by simp, ?_⟩
    intro l hl m hm
    obtain ⟨v, hv, rfl⟩ := List.mem_map.mp hl
    obtain rfl : m = k := by simpa using hm
    exact before_some.mp (h.before v hv)
  before := by
    intro v hv
    rcases List.mem_append.mp hv with hold | hnew
    · intro l hl
      exact (before_some.mp (h.before v hold)).trans (mem_of_nextKey hl).2
    · rw [List.mem_singleton.mp hnew]
      exact before_nextKey s k
  visited_iff := by
    intro l hl
    have hbefore : ∀ v ∈ visits, v.1 < k := fun v hv => before_some.mp (h.before v hv)
    rw [setAt_concat, List.map_append, List.mem_append]
    rcases lt_trichotomy l k with hlt | rfl | hgt
    · -- what was visited before is as it was
      rw [if_neg (not_lt.mpr hlt.le), ← h.visited_iff l (before_some.mpr hlt)]
      simp [hlt.ne]
    · rw [if_neg (lt_irrefl l), setAt_eq_setNow hbefore]
      simp [hk]
    · -- the walk has not come here, and passes over it
      have hnot : l ∉ visits.map Prod.fst := by
        intro hmem
        obtain ⟨v, hv, rfl⟩ := List.mem_map.mp hmem
        exact absurd (hbefore v hv) (not_lt.mpr hgt.le)
      rw [if_pos hgt]
      simp [hnot, hgt.ne', notMem_of_before_nextKey hgt hl]

/-- **What a finished walk has visited**: each key once if it was in the set at its turn, and else
not at all. -/
theorem Visited.count_eq {begun : Finset κ} {visits : List (κ × Finset κ)}
    (h : Visited begun visits none) (k : κ) :
    (visits.map Prod.fst).count k = if k ∈ setAt begun visits k then 1 else 0 := by
  have hnodup : (visits.map Prod.fst).Nodup := h.sorted.imp ne_of_lt
  rw [hnodup.count]
  simp only [h.visited_iff k (before_none k)]

end CppCore.Lib
