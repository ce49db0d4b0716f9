import CppCore.Lib.OrderedMultiset

/-!
# Multimaps in the order of their keys

A list of pairs sorted by their keys, in which pairs with one key keep the order in which they were
added.  It is what an ordered multiset of elements with a key and a payload means, if elements are
only changed in their payload.

## Main definitions

* `Multimap.add`, `Multimap.update`, `Multimap.remove` — the operations on a list of pairs.
* `all_add`, `all_update`, `all_remove` — what they do to the pairs of each key.
* `OrderedMultiset.equalRange`, `OrderedMultiset.modifyFirst`, `OrderedMultiset.erase` — the ranges
  of an ordered multiset, and what can be done to them.
-/

namespace CppCore.Lib

universe u v w

/-! ## Lists of pairs -/

namespace Multimap

variable {κ : Type u} {ν : Type v} [LinearOrder κ]

/-- The pairs are in the order of their keys. -/
def Sorted (l : List (κ × ν)) : Prop := l.Pairwise fun p q => p.1 ≤ q.1

/-- The pairs with a key. -/
def all (l : List (κ × ν)) (k : κ) : List (κ × ν) := l.filter fun p => p.1 = k

/-- A new pair goes behind those with its own key or a smaller one. -/
def add (l : List (κ × ν)) (p : κ × ν) : List (κ × ν) :=
  l.takeWhile (fun q => q.1 ≤ p.1) ++ p :: l.dropWhile fun q => q.1 ≤ p.1

/-- The first pair with the key of `p` gives way to `p`. -/
def replaceFirst : List (κ × ν) → κ × ν → List (κ × ν)
  | [], _ => []
  | q :: l, p => if q.1 = p.1 then p :: l else q :: replaceFirst l p

/-- The first pair with the key gives way, or a new pair is added. -/
def update (l : List (κ × ν)) (p : κ × ν) : List (κ × ν) :=
  if all l p.1 = [] then add l p else replaceFirst l p

/-- All pairs with the key go. -/
def remove (l : List (κ × ν)) (k : κ) : List (κ × ν) := l.filter fun p => p.1 ≠ k

/-- A new pair is the last one with its key, and the pairs with other keys stay. -/
theorem all_add {l : List (κ × ν)} (h : Sorted l) (p : κ × ν) (k : κ) :
    all (add l p) k = all l k ++ if p.1 = k then [p] else [] := by
  induction l with
  | nil => by_cases hk : p.1 = k <;> simp [add, all, hk]
  | cons q l ih =>
    obtain ⟨hq, hl⟩ := List.pairwise_cons.mp h
    by_cases hle : q.1 ≤ p.1
    · have hcons : add (q :: l) p = q :: add l p := by simp [add, hle]
      rw [hcons, all, all, List.filter_cons, List.filter_cons]
      split
      · rw [List.cons_append]
        exact congrArg _ (ih hl)
      · exact ih hl
    · have hcons : add (q :: l) p = p :: q :: l := by simp [add, hle]
      rw [hcons]
      by_cases hk : p.1 = k
      · -- no pair of the list has the key
        have hnil : all (q :: l) k = [] := by
          apply List.filter_eq_nil_iff.mpr
          intro r hr
          have hqr : q.1 ≤ r.1 := by
            rcases List.mem_cons.mp hr with rfl | hr
            · exact le_rfl
            · exact hq r hr
          simpa [← hk] using ((not_le.mp hle).trans_le hqr).ne'
        rw [hnil, all, List.filter_cons_of_pos (by simpa using hk), ← all, hnil]
        simp [hk]
      · rw [all, List.filter_cons_of_neg (by simpa using hk), if_neg hk, List.append_nil, all]

theorem all_replaceFirst_of_ne (l : List (κ × ν)) {p : κ × ν} {k : κ} (hk : p.1 ≠ k) :
    all (replaceFirst l p) k = all l k := by
  induction l with
  | nil => rfl
  | cons q l ih =>
    rw [replaceFirst]
    split
    · rename_i hq
      rw [all, all, List.filter_cons_of_neg (by simpa using hk),
        List.filter_cons_of_neg (by simpa [hq] using hk)]
    · rw [all, all, List.filter_cons, List.filter_cons]
      split
      · exact congrArg _ ih
      · exact ih

/-- **The pairs of other keys stay** in an update. -/
theorem all_update_of_ne {l : List (κ × ν)} (h : Sorted l) {p : κ × ν} {k : κ} (hk : p.1 ≠ k) :
    all (update l p) k = all l k := by
  rw [update]
  split
  · rw [all_add h, if_neg hk, List.append_nil]
  · exact all_replaceFirst_of_ne l hk

/-- **The pairs of other keys stay** in a removal. -/
theorem all_remove_of_ne (l : List (κ × ν)) {k k' : κ} (hk : k ≠ k') :
    all (remove l k) k' = all l k' := by
  rw [all, remove, List.filter_filter]
  apply List.filter_congr
  intro p _
  by_cases hp : p.1 = k'
  · simp [hp, hk.symm]
  · simp [hp]

end Multimap

/-! ## Ordered multisets as multimaps -/

namespace OrderedMultiset

variable {α : Type u} {κ : Type v} [LinearOrder κ] {key : α → κ}

/-- In a sorted list whose keys are not smaller than `k` those that are not greater come first. -/
private theorem takeWhile_le {l : List α} {k : κ} (h : l.Pairwise fun a b => key a ≤ key b)
    (hge : ∀ a ∈ l, k ≤ key a) :
    l.takeWhile (fun a => key a ≤ k) = l.filter (fun a => key a = k) ∧
      l.dropWhile (fun a => key a ≤ k) = l.filter fun a => key a ≠ k := by
  induction l with
  | nil => simp
  | cons a l ih =>
    obtain ⟨ha, hl⟩ := List.pairwise_cons.mp h
    by_cases hak : key a = k
    · obtain ⟨htake, hdrop⟩ := ih hl fun b hb => hge b (by simp [hb])
      simp [hak, htake, hdrop]
    · have hgt : ∀ b ∈ a :: l, key b ≠ k := by
        intro b hb
        have hab : key a ≤ key b := by
          rcases List.mem_cons.mp hb with rfl | hb
          · exact le_rfl
          · exact ha b hb
        exact ((lt_of_le_of_ne (hge a (by simp)) (Ne.symm hak)).trans_le hab).ne'
      have hnot : ¬key a ≤ k := fun hle => hak (le_antisymm hle (hge a (by simp)))
      rw [List.takeWhile_cons_of_neg (by simpa using hnot),
        List.dropWhile_cons_of_neg (by simpa using hnot)]
      refine ⟨?_, ?_⟩
      · symm
        simpa [List.filter_eq_nil_iff] using hgt
      · symm
        simpa [List.filter_eq_self] using hgt

/-- The elements with a key are a range of a sorted list, and the others are around it. -/
private theorem range_eq {l : List α} (h : l.Pairwise fun a b => key a ≤ key b) (k : κ) :
    (l.dropWhile fun a => key a < k).takeWhile (fun a => key a ≤ k) =
        l.filter (fun a => key a = k) ∧
      l.takeWhile (fun a => key a < k) ++
          (l.dropWhile fun a => key a < k).dropWhile (fun a => key a ≤ k) =
        l.filter fun a => key a ≠ k := by
  induction l with
  | nil => simp
  | cons a l ih =>
    obtain ⟨ha, hl⟩ := List.pairwise_cons.mp h
    by_cases hlt : key a < k
    · obtain ⟨hrange, haround⟩ := ih hl
      rw [List.dropWhile_cons_of_pos (by simpa using hlt),
        List.takeWhile_cons_of_pos (by simpa using hlt),
        List.filter_cons_of_neg (by simpa using hlt.ne),
        List.filter_cons_of_pos (by simpa using hlt.ne), List.cons_append]
      exact ⟨hrange, congrArg _ haround⟩
    · have hge : ∀ b ∈ a :: l, k ≤ key b := by
        intro b hb
        rcases List.mem_cons.mp hb with rfl | hb
        · exact not_lt.mp hlt
        · exact (not_lt.mp hlt).trans (ha b hb)
      have hfirst : ¬decide (key a < k) = true := by simpa using hlt
      rw [List.dropWhile_cons_of_neg (p := fun a => decide (key a < k)) hfirst,
        List.takeWhile_cons_of_neg (p := fun a => decide (key a < k)) hfirst, List.nil_append]
      exact takeWhile_le h hge

/-- `equal_range`: from the first element whose key is not smaller to the first one whose key is
greater. -/
def equalRange (s : OrderedMultiset key) (k : κ) : List α :=
  (s.toList.dropWhile fun a => key a < k).takeWhile fun a => key a ≤ k

/-- The range has the elements with the key, and no others. -/
theorem equalRange_eq_filter (s : OrderedMultiset key) (k : κ) :
    s.equalRange k = s.toList.filter fun a => key a = k :=
  (range_eq s.sorted k).1

/-- `erase` of a key: what is around its range. -/
def erase (s : OrderedMultiset key) (k : κ) : OrderedMultiset key where
  toList := s.toList.takeWhile (fun a => key a < k) ++
    (s.toList.dropWhile fun a => key a < k).dropWhile fun a => key a ≤ k
  sorted := by
    rw [(range_eq s.sorted k).2]
    exact s.sorted.filter _

/-- The elements with other keys stay. -/
theorem toList_erase (s : OrderedMultiset key) (k : κ) :
    (s.erase k).toList = s.toList.filter fun a => key a ≠ k :=
  (range_eq s.sorted k).2

/-- A change in place of the first element with a key, which leaves the keys alone. -/
def modifyFirst (s : OrderedMultiset key) (k : κ) (f : α → α) (hf : ∀ a, key (f a) = key a) :
    OrderedMultiset key where
  toList := s.toList.modify (s.toList.findIdx fun a => key a = k) f
  sorted := by
    have hkeys : ∀ (l : List α) (i : ℕ), (l.modify i f).map key = l.map key := by
      intro l
      induction l with
      | nil => simp
      | cons a l ih =>
        intro i
        cases i with
        | zero => simp [hf]
        | succ i => simpa using ih i
    have hsorted := s.sorted
    rw [← List.pairwise_map (R := (· ≤ ·))] at hsorted ⊢
    rwa [hkeys]

/-! ## What the elements mean -/

variable {κ' : Type v} {ν : Type w} [LinearOrder κ'] {pair : α → κ' × ν}

/-- **Inserting an element** adds its pair. -/
theorem map_insert (hle : ∀ a b, key a ≤ key b ↔ (pair a).1 ≤ (pair b).1)
    (s : OrderedMultiset key) (a : α) :
    (s.insert a).toList.map pair = Multimap.add (s.toList.map pair) (pair a) := by
  have hpred : (fun b => decide ¬key a < key b) =
      (fun q : κ' × ν => decide (q.1 ≤ (pair a).1)) ∘ pair := by
    funext b
    simp only [not_lt, hle, Function.comp_apply]
  change (s.toList.orderedInsert (fun a b => key a < key b) a).map pair = _
  rw [List.orderedInsert_eq_take_drop, List.map_append, List.map_cons, Multimap.add,
    List.takeWhile_map, List.dropWhile_map, hpred]

/-- **Erasing a key** removes its pairs. -/
theorem map_erase {k : κ} {k' : κ'} (hk : ∀ a, key a = k ↔ (pair a).1 = k')
    (s : OrderedMultiset key) :
    (s.erase k).toList.map pair = Multimap.remove (s.toList.map pair) k' := by
  rw [toList_erase, Multimap.remove, List.filter_map]
  congr 2
  funext a
  simp [hk]

/-- The range of a key has its pairs. -/
theorem map_equalRange {k : κ} {k' : κ'} (hk : ∀ a, key a = k ↔ (pair a).1 = k')
    (s : OrderedMultiset key) :
    (s.equalRange k).map pair = Multimap.all (s.toList.map pair) k' := by
  rw [equalRange_eq_filter, Multimap.all, List.filter_map]
  congr 2
  funext a
  simp [hk]

/-- The first element of a key has its first pair. -/
theorem map_find {k : κ} {k' : κ'} (hk : ∀ a, key a = k ↔ (pair a).1 = k')
    (s : OrderedMultiset key) :
    (s.find k).map pair = (Multimap.all (s.toList.map pair) k').head? := by
  rw [← map_equalRange hk, equalRange_eq_filter, List.head?_map, List.head?_filter]
  rfl

/-- **A change in place** replaces the first pair of the key. -/
theorem map_modifyFirst {p : κ' × ν} {k : κ} {f : α → α} (hf : ∀ a, key (f a) = key a)
    (hk : ∀ a, key a = k ↔ (pair a).1 = p.1) (hp : ∀ a, key a = k → pair (f a) = p)
    (s : OrderedMultiset key) :
    (s.modifyFirst k f hf).toList.map pair = Multimap.replaceFirst (s.toList.map pair) p := by
  change (s.toList.modify (s.toList.findIdx fun a => key a = k) f).map pair = _
  induction s.toList with
  | nil => simp [Multimap.replaceFirst]
  | cons a l ih =>
    rw [List.findIdx_cons, List.map_cons, Multimap.replaceFirst]
    by_cases ha : key a = k
    · rw [if_pos ((hk a).mp ha)]
      simp [ha, hp a ha]
    · rw [if_neg fun h => ha ((hk a).mpr h)]
      simp [ha, ih]

end OrderedMultiset

end CppCore.Lib
