import Mathlib.Data.List.Sort
import Mathlib.Data.List.TakeWhile

/-!
# Ordered multisets

A `std::multiset` whose comparison looks at a key of its elements: a sequence sorted by that
key in which elements with equal keys keep the order of their insertion.  The sortedness is a
field, so an unsorted container cannot be built.

## Main definitions

* `OrderedMultiset` — the elements in iteration order, sorted by their key.
* `insert`, `insertAll` — one element, a list of elements one after the other.
* `find` — the first element with a key; `find_insertAll` computes it from what was inserted.
* `toList_insertAll` — inserting a list that is sorted already keeps its order.
* `toList_insertAll_empty` — inserting any list into an empty container sorts it stably.
-/

namespace CppCore.Lib

universe u v
variable {α : Type u} {κ : Type v} [LinearOrder κ]

/-- The elements of an ordered multiset in iteration order. -/
@[ext] structure OrderedMultiset (key : α → κ) where
  /-- The elements. -/
  toList : List α
  /-- The order of the keys. -/
  sorted : toList.Pairwise (fun a b => key a ≤ key b)

/-- Inserting behind the elements with a key that is not greater keeps a list sorted. -/
private theorem pairwise_orderedInsert (key : α → κ) (a : α) :
    ∀ l : List α, l.Pairwise (fun a b => key a ≤ key b) →
      (l.orderedInsert (fun a b => key a < key b) a).Pairwise (fun a b => key a ≤ key b) := by
  intro l hl
  induction l with
  | nil => simp
  | cons b l ih =>
    obtain ⟨hb, hl'⟩ := List.pairwise_cons.mp hl
    rw [List.orderedInsert_cons]
    split
    · rename_i hab
      refine List.pairwise_cons.mpr ⟨fun x hx => ?_, hl⟩
      rcases List.mem_cons.mp hx with rfl | hx
      · exact hab.le
      · exact hab.le.trans (hb x hx)
    · rename_i hab
      refine List.pairwise_cons.mpr ⟨fun x hx => ?_, ih hl'⟩
      rcases List.mem_orderedInsert _ |>.mp hx with rfl | hx
      · exact not_lt.mp hab
      · exact hb x hx

namespace OrderedMultiset

variable {key : α → κ}

instance [DecidableEq α] : DecidableEq (OrderedMultiset key) := fun _ _ =>
  decidable_of_iff _ OrderedMultiset.ext_iff.symm

/-- The container without elements. -/
def empty : OrderedMultiset key := ⟨[], List.Pairwise.nil⟩

/-- Insert `a` behind the elements whose key is not greater. -/
def insert (s : OrderedMultiset key) (a : α) : OrderedMultiset key where
  toList := s.toList.orderedInsert (fun a b => key a < key b) a
  sorted := pairwise_orderedInsert key a s.toList s.sorted

/-- Insert the elements of a list one after the other. -/
def insertAll (s : OrderedMultiset key) (l : List α) : OrderedMultiset key :=
  l.foldl insert s

/-- The first element with the key `k`. -/
def find (s : OrderedMultiset key) (k : κ) : Option α := s.toList.find? (fun a => key a = k)

@[simp] theorem toList_empty : (empty : OrderedMultiset key).toList = [] := rfl
@[simp] theorem insertAll_nil (s : OrderedMultiset key) : s.insertAll [] = s := rfl
@[simp] theorem insertAll_cons (s : OrderedMultiset key) (a : α) (l : List α) :
    s.insertAll (a :: l) = (s.insert a).insertAll l := rfl

theorem insertAll_append (s : OrderedMultiset key) (l₁ l₂ : List α) :
    s.insertAll (l₁ ++ l₂) = (s.insertAll l₁).insertAll l₂ := List.foldl_append

theorem perm_insert (s : OrderedMultiset key) (a : α) :
    (s.insert a).toList.Perm (a :: s.toList) := List.perm_orderedInsert _ a s.toList

theorem perm_insertAll (s : OrderedMultiset key) (l : List α) :
    (s.insertAll l).toList.Perm (s.toList ++ l) := by
  induction l generalizing s with
  | nil => simp
  | cons a l ih =>
    calc ((s.insert a).insertAll l).toList
        |>.Perm ((s.insert a).toList ++ l) := ih _
      _ |>.Perm (a :: s.toList ++ l) := (perm_insert s a).append_right l
      _ |>.Perm (s.toList ++ a :: l) := List.perm_middle.symm

/-- An element whose key is at least every other goes to the end. -/
theorem toList_insert_of_forall_le {s : OrderedMultiset key} {a : α}
    (h : ∀ b ∈ s.toList, key b ≤ key a) : (s.insert a).toList = s.toList ++ [a] := by
  have hskip : ∀ b ∈ s.toList, decide ¬key a < key b = true := fun b hb => by
    simpa using h b hb
  change s.toList.orderedInsert (fun a b => key a < key b) a = s.toList ++ [a]
  rw [List.orderedInsert_eq_take_drop, List.takeWhile_eq_self_iff.mpr hskip,
    List.dropWhile_eq_nil_iff.mpr hskip]

/-- **A sorted list is inserted in its own order**, behind what was there when no key of that
is greater. -/
theorem toList_insertAll {s : OrderedMultiset key} {l : List α}
    (h : (s.toList ++ l).Pairwise (fun a b => key a ≤ key b)) :
    (s.insertAll l).toList = s.toList ++ l := by
  induction l generalizing s with
  | nil => simp
  | cons a l ih =>
    have ha : (s.insert a).toList = s.toList ++ [a] := by
      refine toList_insert_of_forall_le fun b hb => ?_
      exact (List.pairwise_append.mp h).2.2 b hb a (by simp)
    rw [insertAll_cons, ih (by simpa [ha] using h), ha, List.append_assoc, List.singleton_append]

/-- Inserting the elements of a container into an empty one rebuilds it. -/
@[simp] theorem insertAll_toList (s : OrderedMultiset key) : empty.insertAll s.toList = s := by
  have h : ((empty : OrderedMultiset key).toList ++ s.toList).Pairwise
      (fun a b => key a ≤ key b) := by simpa using s.sorted
  exact OrderedMultiset.ext (by simpa using toList_insertAll h)

theorem find_insert (s : OrderedMultiset key) (a : α) (k : κ) :
    (s.insert a).find k = (s.find k).or (if key a = k then some a else none) := by
  obtain ⟨l, hl⟩ := s
  simp only [insert, find]
  induction l with
  | nil => by_cases h : key a = k <;> simp [h]
  | cons b l ih =>
    obtain ⟨hb, hl'⟩ := List.pairwise_cons.mp hl
    rw [List.orderedInsert_cons]
    split
    · rename_i hab
      by_cases h : key a = k
      · -- every element of the list has a greater key
        have hnone : List.find? (fun x => decide (key x = k)) (b :: l) = none := by
          refine List.find?_eq_none.mpr fun x hx => ?_
          have hxb : key b ≤ key x := by
            rcases List.mem_cons.mp hx with rfl | hx
            · exact le_rfl
            · exact hb x hx
          simpa [← h] using (hab.trans_le hxb).ne'
        rw [List.find?_cons_of_pos (by simpa using h), hnone, if_pos h]
        rfl
      · simp [h]
    · by_cases h : key b = k
      · simp [h]
      · simpa [h] using ih hl'

/-- **The first element with a key** is the one that was there, else the first one inserted. -/
theorem find_insertAll (s : OrderedMultiset key) (l : List α) (k : κ) :
    (s.insertAll l).find k = (s.find k).or (l.find? (fun a => key a = k)) := by
  induction l generalizing s with
  | nil => simp
  | cons a l ih =>
    rw [insertAll_cons, ih, find_insert, Option.or_assoc]
    by_cases h : key a = k <;> simp [h]

/-! ## Stability -/

/-- An element goes behind those with its own key; the others keep their places. -/
theorem filter_insert (s : OrderedMultiset key) (a : α) (k : κ) :
    (s.insert a).toList.filter (fun b => key b = k) =
      s.toList.filter (fun b => key b = k) ++ [a].filter (fun b => key b = k) := by
  obtain ⟨l, hl⟩ := s
  simp only [insert]
  induction l with
  | nil => simp
  | cons b l ih =>
    obtain ⟨hb, hl'⟩ := List.pairwise_cons.mp hl
    rw [List.orderedInsert_cons]
    by_cases hab : key a < key b
    · rw [if_pos hab]
      by_cases h : key a = k
      · -- every element of the list has a greater key
        have hnil : (b :: l).filter (fun x => decide (key x = k)) = [] := by
          refine List.filter_eq_nil_iff.mpr fun x hx => ?_
          have hxb : key b ≤ key x := by
            rcases List.mem_cons.mp hx with rfl | hx
            · exact le_rfl
            · exact hb x hx
          simpa [← h] using (hab.trans_le hxb).ne'
        rw [List.filter_cons_of_pos (by simpa using h), hnil]
        simp [h]
      · simp [h]
    · rw [if_neg hab]
      by_cases h : key b = k
      · have hkeep (t : List α) : (b :: t).filter (fun x => decide (key x = k)) =
            b :: t.filter (fun x => decide (key x = k)) :=
          List.filter_cons_of_pos (by simpa using h)
        rw [hkeep, hkeep, ih hl', List.cons_append]
      · have hskip (t : List α) : (b :: t).filter (fun x => decide (key x = k)) =
            t.filter (fun x => decide (key x = k)) := List.filter_cons_of_neg (by simpa using h)
        rw [hskip, hskip, ih hl']

/-- Elements with the same key stay in the order in which they were inserted. -/
theorem filter_insertAll (s : OrderedMultiset key) (l : List α) (k : κ) :
    (s.insertAll l).toList.filter (fun b => key b = k) =
      s.toList.filter (fun b => key b = k) ++ l.filter (fun b => key b = k) := by
  induction l generalizing s with
  | nil => simp
  | cons a l ih =>
    rw [insertAll_cons, ih, filter_insert, List.append_assoc, ← List.filter_append]
    rfl

end OrderedMultiset

/-- A list sorted by a key is determined by its parts with one key each. -/
theorem eq_of_filter_key {key : α → κ} {l₁ l₂ : List α}
    (h₁ : l₁.Pairwise (fun a b => key a ≤ key b)) (h₂ : l₂.Pairwise (fun a b => key a ≤ key b))
    (h : ∀ k, l₁.filter (fun a => key a = k) = l₂.filter (fun a => key a = k)) : l₁ = l₂ := by
  have hmem : ∀ a, a ∈ l₁ ↔ a ∈ l₂ := by
    intro a
    have := congrArg (a ∈ ·) (h (key a))
    simpa using this
  induction l₁ generalizing l₂ with
  | nil =>
    symm
    exact List.eq_nil_iff_forall_not_mem.mpr fun a ha => by simpa using (hmem a).mpr ha
  | cons a l₁ ih =>
    obtain ⟨b, l₂, rfl⟩ := List.exists_cons_of_ne_nil (List.ne_nil_of_mem ((hmem a).mp (by simp)))
    obtain ⟨ha, h₁'⟩ := List.pairwise_cons.mp h₁
    obtain ⟨hb, h₂'⟩ := List.pairwise_cons.mp h₂
    have hab : key a ≤ key b := by
      rcases List.mem_cons.mp ((hmem b).mpr (by simp)) with rfl | hmem
      · exact le_rfl
      · exact ha b hmem
    have hba : key b ≤ key a := by
      rcases List.mem_cons.mp ((hmem a).mp (by simp)) with rfl | hmem
      · exact le_rfl
      · exact hb a hmem
    have hkey : key b = key a := le_antisymm hba hab
    have hhead := h (key a)
    rw [List.filter_cons_of_pos (by simp), List.filter_cons_of_pos (by simpa using hkey)] at hhead
    obtain rfl := (List.cons.inj hhead).1
    have htail : ∀ k, l₁.filter (fun x => key x = k) = l₂.filter (fun x => key x = k) := by
      intro k
      have hk := h k
      by_cases hak : key a = k
      · rw [List.filter_cons_of_pos (by simpa using hak),
          List.filter_cons_of_pos (by simpa using hak)] at hk
        exact (List.cons.inj hk).2
      · rwa [List.filter_cons_of_neg (by simpa using hak),
          List.filter_cons_of_neg (by simpa using hak)] at hk
    have hmem' : ∀ x, x ∈ l₁ ↔ x ∈ l₂ := by
      intro x
      have := congrArg (x ∈ ·) (htail (key x))
      simpa using this
    rw [ih h₁' h₂' htail hmem']

/-- Stable sorting keeps the order of the elements with one key. -/
theorem filter_mergeSort {key : α → κ} (l : List α) (k : κ) :
    (l.mergeSort fun a b => key a ≤ key b).filter (fun a => key a = k) =
      l.filter (fun a => key a = k) := by
  have htrans : ∀ a b c : α, decide (key a ≤ key b) = true → decide (key b ≤ key c) = true →
      decide (key a ≤ key c) = true := by
    intro a b c hab hbc
    simpa using (of_decide_eq_true hab).trans (of_decide_eq_true hbc)
  have htotal : ∀ a b : α, (decide (key a ≤ key b) || decide (key b ≤ key a)) = true := by
    intro a b
    simpa using le_total (key a) (key b)
  have hsame : (l.filter fun a => key a = k).Pairwise
      (fun a b => decide (key a ≤ key b) = true) := by
    refine List.pairwise_of_forall_mem_list fun a ha b hb => ?_
    have ha := (List.mem_filter.mp ha).2
    have hb := (List.mem_filter.mp hb).2
    simp only [decide_eq_true_eq] at ha hb
    simp [ha, hb]
  have hsub := (List.sublist_mergeSort htrans htotal hsame List.filter_sublist).filter
    (fun a => decide (key a = k))
  rw [List.filter_filter] at hsub
  simp only [Bool.and_self] at hsub
  refine (hsub.eq_of_length ?_).symm
  exact ((List.mergeSort_perm l _).filter _).length_eq.symm

/-- **Inserting a list into an empty container sorts it stably.** -/
theorem OrderedMultiset.toList_insertAll_empty {key : α → κ} (l : List α) :
    ((empty : OrderedMultiset key).insertAll l).toList =
      l.mergeSort fun a b => key a ≤ key b := by
  refine eq_of_filter_key (OrderedMultiset.sorted _) ?_ fun k => ?_
  · have h : (l.mergeSort fun a b => key a ≤ key b).Pairwise
        (fun a b => decide (key a ≤ key b) = true) := List.pairwise_mergeSort
      (fun a b c hab hbc => by
        simpa using (of_decide_eq_true hab).trans (of_decide_eq_true hbc))
      (fun a b => by simpa using le_total (key a) (key b)) l
    simpa using h
  · rw [filter_insertAll, filter_mergeSort]
    rfl

end CppCore.Lib
