import Mathlib.Data.List.Infix
import Mathlib.Data.List.Lemmas

/-!
# Searching a sequence

The first occurrence of an element from an index on, the last one up to an index, and the first
occurrence of a word.  An index that is found is characterised by the element at it and by what is
passed over on the way.

## Main definitions

* `indexFrom`, `indexUpTo` — searching forwards and backwards for an element.
* `indexOfWord` — searching for a word.
* `indexFrom_eq_some`, `indexUpTo_eq_some` — what is found.
-/

namespace CppCore.Lib

universe u
variable {α : Type u} [DecidableEq α] {l : List α} {a : α}

/-! ## An element -/

/-- The first index from `pos` on with the element. -/
def indexFrom (l : List α) (a : α) (pos : ℕ) : Option ℕ :=
  ((l.drop pos).findIdx? (· = a)).map (pos + ·)

/-- The last index up to `pos` with the element. -/
def indexUpTo (l : List α) (a : α) : ℕ → Option ℕ
  | 0 => if l[0]? = some a then some 0 else none
  | pos + 1 => if l[pos + 1]? = some a then some (pos + 1) else indexUpTo l a pos

theorem indexFrom_eq_none {pos : ℕ} :
    indexFrom l a pos = none ↔ ∀ i, pos ≤ i → l[i]? ≠ some a := by
  rw [indexFrom, Option.map_eq_none_iff, List.findIdx?_eq_none_iff]
  constructor
  · intro h i hi hget
    have hmem : a ∈ l.drop pos := by
      apply List.mem_of_getElem? (i := i - pos)
      rw [List.getElem?_drop, Nat.add_sub_cancel' hi, hget]
    simpa using h a hmem
  · intro h b hb
    obtain ⟨k, hk⟩ := List.mem_iff_getElem?.mp hb
    rw [List.getElem?_drop] at hk
    simp only [decide_eq_false_iff_not]
    rintro rfl
    exact h (pos + k) (Nat.le_add_right pos k) hk

/-- **Forwards**: the element is at the index, and nowhere before it. -/
theorem indexFrom_eq_some {pos i : ℕ} :
    indexFrom l a pos = some i ↔
      pos ≤ i ∧ l[i]? = some a ∧ ∀ j, pos ≤ j → j < i → l[j]? ≠ some a := by
  rw [indexFrom, Option.map_eq_some_iff]
  constructor
  · rintro ⟨k, hk, rfl⟩
    obtain ⟨hlt, hget, hbefore⟩ := List.findIdx?_eq_some_iff_getElem.mp hk
    refine ⟨Nat.le_add_right pos k, ?_, ?_⟩
    · rw [← List.getElem?_drop, List.getElem?_eq_getElem hlt]
      simpa using hget
    · intro j hpos hj hj'
      have hjk : j - pos < k := by omega
      have hne := hbefore (j - pos) hjk
      have hdrop : (l.drop pos)[j - pos]? = some a := by
        rw [List.getElem?_drop, Nat.add_sub_cancel' hpos, hj']
      rw [List.getElem?_eq_getElem (hjk.trans hlt)] at hdrop
      simp [Option.some.inj hdrop] at hne
  · rintro ⟨hpos, hget, hbefore⟩
    have hdrop : (l.drop pos)[i - pos]? = some a := by
      rw [List.getElem?_drop, Nat.add_sub_cancel' hpos, hget]
    obtain ⟨hlt, heq⟩ := List.getElem?_eq_some_iff.mp hdrop
    refine ⟨i - pos, ?_, Nat.add_sub_cancel' hpos⟩
    rw [List.findIdx?_eq_some_iff_getElem]
    refine ⟨hlt, by simpa using heq, ?_⟩
    intro j hj
    have hne := hbefore (pos + j) (Nat.le_add_right pos j) (by omega)
    rw [← List.getElem?_drop, List.getElem?_eq_getElem (hj.trans hlt)] at hne
    simpa using hne

/-- Where the element is ahead, it or one before it is found. -/
theorem indexFrom_le {pos i : ℕ} (hget : l[i]? = some a) (hpos : pos ≤ i) :
    ∃ j, indexFrom l a pos = some j ∧ j ≤ i := by
  cases h : indexFrom l a pos with
  | none => exact (indexFrom_eq_none.mp h i hpos hget).elim
  | some j =>
    refine ⟨j, rfl, ?_⟩
    by_contra hlt
    exact (indexFrom_eq_some.mp h).2.2 i hpos (not_le.mp hlt) hget

theorem indexFrom_lt_length {pos i : ℕ} (h : indexFrom l a pos = some i) : i < l.length :=
  (List.getElem?_eq_some_iff.mp (indexFrom_eq_some.mp h).2.1).1

/-- The element is found behind others. -/
theorem indexFrom_append_cons {l₁ l₂ : List α} {pos : ℕ} (hpos : pos ≤ l₁.length)
    (h : a ∉ l₁.drop pos) : indexFrom (l₁ ++ a :: l₂) a pos = some l₁.length := by
  refine indexFrom_eq_some.mpr ⟨hpos, by simp, fun j hle hlt hj => h ?_⟩
  rw [List.getElem?_append_left hlt] at hj
  apply List.mem_of_getElem? (i := j - pos)
  rw [List.getElem?_drop, Nat.add_sub_cancel' hle, hj]

theorem indexFrom_of_not_mem {pos : ℕ} (h : a ∉ l.drop pos) : indexFrom l a pos = none := by
  refine indexFrom_eq_none.mpr fun i hi hget => h ?_
  apply List.mem_of_getElem? (i := i - pos)
  rw [List.getElem?_drop, Nat.add_sub_cancel' hi, hget]

/-- **Backwards**: the element is at the index, and nowhere behind it. -/
theorem indexUpTo_eq_some {pos i : ℕ} :
    indexUpTo l a pos = some i ↔
      i ≤ pos ∧ l[i]? = some a ∧ ∀ j, i < j → j ≤ pos → l[j]? ≠ some a := by
  induction pos with
  | zero =>
    rw [indexUpTo]
    constructor
    · intro h
      split at h
      · obtain rfl := Option.some.inj h
        exact ⟨le_rfl, by assumption, by omega⟩
      · cases h
    · rintro ⟨hi, hget, _⟩
      obtain rfl := Nat.le_zero.mp hi
      rw [if_pos hget]
  | succ pos ih =>
    rw [indexUpTo]
    split
    · rename_i hlast
      constructor
      · intro h
        obtain rfl := Option.some.inj h
        exact ⟨le_rfl, hlast, by omega⟩
      · rintro ⟨hi, _, hbehind⟩
        by_cases h : i = pos + 1
        · rw [h]
        · exact (hbehind (pos + 1) (by omega) le_rfl hlast).elim
    · rename_i hlast
      rw [ih]
      constructor
      · rintro ⟨hi, hget, hbehind⟩
        refine ⟨by omega, hget, ?_⟩
        intro j hij hj
        by_cases h : j = pos + 1
        · rwa [h]
        · exact hbehind j hij (by omega)
      · rintro ⟨hi, hget, hbehind⟩
        have hne : i ≠ pos + 1 := by
          rintro rfl
          exact hlast hget
        exact ⟨by omega, hget, fun j hij hj => hbehind j hij (by omega)⟩

/-- The element is found in front of others. -/
theorem indexUpTo_append_cons {l₁ m l₂ : List α} (h : a ∉ m) :
    indexUpTo (l₁ ++ a :: (m ++ l₂)) a (l₁.length + m.length) = some l₁.length := by
  refine indexUpTo_eq_some.mpr ⟨Nat.le_add_right _ _, by simp, fun j hlt hle hj => h ?_⟩
  obtain ⟨k, rfl⟩ := Nat.exists_eq_add_of_lt hlt
  rw [List.getElem?_append_right (by omega), Nat.add_assoc, Nat.add_sub_cancel_left,
    List.getElem?_cons_succ, List.getElem?_append_left (by omega)] at hj
  exact List.mem_of_getElem? hj

/-- Starting earlier, but not in front of what was found, finds the same. -/
theorem indexUpTo_eq_of_le {pos pos' i : ℕ} (h : indexUpTo l a pos = some i) (hpos : pos' ≤ pos)
    (hi : i ≤ pos') : indexUpTo l a pos' = some i := by
  obtain ⟨_, hget, hbehind⟩ := indexUpTo_eq_some.mp h
  exact indexUpTo_eq_some.mpr ⟨hi, hget, fun j hij hj => hbehind j hij (hj.trans hpos)⟩

/-! ## A word -/

/-- The first index at which the word begins. -/
def indexOfWord (w : List α) : List α → Option ℕ
  | [] => if w = [] then some 0 else none
  | b :: l => if w <+: b :: l then some 0 else (indexOfWord w l).map (· + 1)

/-- Nothing before it is passed over. -/
theorem indexOfWord_le {w l : List α} {i : ℕ} (h : w <+: l.drop i) :
    ∃ j, indexOfWord w l = some j ∧ j ≤ i := by
  induction l generalizing i with
  | nil =>
    have hw : w = [] := by simpa using h
    exact ⟨0, by rw [indexOfWord, if_pos hw], Nat.zero_le i⟩
  | cons b l ih =>
    rw [indexOfWord]
    split
    · exact ⟨0, rfl, Nat.zero_le i⟩
    · rename_i hw
      cases i with
      | zero => exact (hw h).elim
      | succ i =>
        obtain ⟨j, hj, hle⟩ := ih h
        exact ⟨j + 1, by rw [hj]; rfl, by omega⟩

/-- A word is found behind what its first element is not in. -/
theorem indexOfWord_append {w l₁ l₂ : List α} (ha : a ∉ l₁) (hw : a :: w <+: l₂) :
    indexOfWord (a :: w) (l₁ ++ l₂) = some l₁.length := by
  induction l₁ with
  | nil =>
    obtain ⟨j, hj, hle⟩ := indexOfWord_le (w := a :: w) (l := l₂) (i := 0) hw
    obtain rfl := Nat.le_zero.mp hle
    exact hj
  | cons b l₁ ih =>
    obtain ⟨hne, ha⟩ := not_or.mp (List.mem_cons.not.mp ha)
    have hnot : ¬a :: w <+: b :: (l₁ ++ l₂) := fun h => hne (List.cons_prefix_cons.mp h).1
    rw [List.cons_append, indexOfWord, if_neg hnot, ih ha]
    rfl

end CppCore.Lib
