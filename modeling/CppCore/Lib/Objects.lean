import CppCore.Lib.Heap
import Mathlib.Data.Fintype.Basic

/-!
# Objects with a pointer

Objects on a heap refer to blocks, which they own or which the client lends to them.  To its user
an object is a value: what happens to another object does not change it.  This is so if every block
has one owner, and an object refers to nothing but its own block or one of the client.

## Main definitions

* `ObjectType` — a type of objects, and what they refer to, own and mean.
* `World`, `Values` — any number of objects on a heap; their values.
* `World.Sound` — the invariant.
* `World.Changes` — what a change of one object has to show; `Changes.sound`, `Changes.values_eq`
  say what follows.
* `Sound.construct`, `Sound.change`, `Sound.store`, `Sound.replace`, `Sound.changes_of_delete` —
  changes of one object.
-/

namespace CppCore.Lib

open Function

universe u v
variable {α : Type u} {ι : Type v}

/-- A type of objects that have a pointer: the block an object refers to, the one it owns, and its
value. -/
structure ObjectType (α O V : Type*) where
  refers : O → Option ℕ
  owns : O → Option ℕ
  value : O → Heap α → V
  refers_of_owns : ∀ o a, owns o = some a → refers o = some a
  value_congr : ∀ o heap heap', (∀ a, refers o = some a → heap' a = heap a) →
    value o heap' = value o heap

/-- The objects of a program, and the blocks of the client. -/
structure World (α O ι : Type*) where
  heap : Heap α
  objects : ι → Option O
  client : Finset ℕ

/-- The same with values for objects. -/
@[ext] structure Values (α V ι : Type*) where
  objects : ι → Option V
  blocks : Heap α

namespace World

variable {O V : Type*} (T : ObjectType α O V) (w : World α O ι)

/-- A world without anything. -/
def empty : World α O ι := ⟨fun _ => none, fun _ => none, ∅⟩

/-- What the objects own. -/
def owns (objects : ι → Option O) (i : ι) : Option ℕ := (objects i).bind T.owns

/-- A block that no object refers to. -/
def Unused (a : ℕ) : Prop := ∀ i, ∀ o ∈ w.objects i, T.refers o ≠ some a

instance [Fintype ι] (a : ℕ) : Decidable (w.Unused T a) :=
  inferInstanceAs (Decidable (∀ i, ∀ o ∈ w.objects i, T.refers o ≠ some a))

/-- The values of the objects, and what is in the blocks of the client. -/
def values : Values α V ι where
  objects i := (w.objects i).map fun o => T.value o w.heap
  blocks a := if a ∈ w.client then w.heap a else none

/-- **The invariant**: every block has one owner, and what an object does not own is the
client's. -/
structure Sound : Prop where
  owned : Owned w.heap (owns T w.objects) w.client
  lent : ∀ i o, w.objects i = some o → ∀ a, T.refers o = some a → T.owns o = some a ∨ a ∈ w.client

variable {T w} {i j : ι} {o o' : O} {a : ℕ}

theorem Sound.empty : (World.empty : World α O ι).Sound T where
  owned := ⟨by simp [owns, World.empty], by simp [World.empty], by simp [owns, World.empty],
    by simp [owns, World.empty], by simp [World.empty]⟩
  lent i o hi := by cases hi

theorem owns_eq (hi : w.objects i = some o) : owns T w.objects i = T.owns o := by
  rw [owns, hi, Option.bind_some]

theorem owns_eq_none (hi : w.objects i = none) : owns T w.objects i = none := by
  rw [owns, hi, Option.bind_none]

/-- **No pointer dangles.** -/
theorem Sound.live (h : w.Sound T) (hi : w.objects i = some o) (ha : T.refers o = some a) :
    (w.heap a).isSome := by
  rcases h.lent i o hi a ha with howns | hclient
  · exact h.owned.live i a ((owns_eq hi).trans howns)
  · exact h.owned.held a hclient

/-- **What an object owns, no other refers to.** -/
theorem Sound.exclusive (h : w.Sound T) (ha : owns T w.objects i = some a)
    (hj : w.objects j = some o) (hne : j ≠ i) : T.refers o ≠ some a := by
  intro hrefers
  rcases h.lent j o hj a hrefers with howns | hclient
  · exact hne (h.owned.unique j i a ((owns_eq hj).trans howns) ha)
  · exact h.owned.apart i a ha hclient

/-- Nobody refers to what is free. -/
theorem Sound.ne_of_free (h : w.Sound T) (ha : w.heap a = none) (hi : w.objects i = some o) :
    T.refers o ≠ some a := by
  intro hrefers
  have hlive := h.live hi hrefers
  rw [ha] at hlive
  cases hlive

/-- So it may be allocated. -/
theorem Sound.update_of_free (h : w.Sound T) (ha : w.heap a = none) (cells : Option (List α)) :
    (∀ j o, w.objects j = some o → ∀ b, T.refers o = some b →
      update w.heap a cells b = w.heap b) ∧ ∀ b ∈ w.client, update w.heap a cells b = w.heap b := by
  constructor
  · intro j o hj b hb
    rw [update_of_ne]
    rintro rfl
    exact h.ne_of_free ha hj hb
  · intro b hb
    rw [update_of_ne]
    rintro rfl
    exact h.owned.not_mem_of_free ha hb

/-- What an object owns may be changed. -/
theorem Sound.update_of_owns (h : w.Sound T) (hi : w.objects i = some o) (ha : T.owns o = some a)
    (cells : Option (List α)) :
    (∀ j ≠ i, ∀ o', w.objects j = some o' → ∀ b, T.refers o' = some b →
      update w.heap a cells b = w.heap b) ∧ ∀ b ∈ w.client, update w.heap a cells b = w.heap b := by
  constructor
  · intro j hne o' hj b hb
    rw [update_of_ne]
    rintro rfl
    exact h.exclusive ((owns_eq hi).trans ha) hj hne hb
  · intro b hb
    rw [update_of_ne]
    rintro rfl
    exact h.owned.apart i b ((owns_eq hi).trans ha) hb

theorem values_of_object (hi : w.objects i = some o) :
    (w.values T).objects i = some (T.value o w.heap) := by
  simp [values, hi]

/-- The blocks of the client are left alone. -/
theorem values_blocks {w' : World α O ι} (hclient : w'.client = w.client)
    (h : ∀ a ∈ w.client, w'.heap a = w.heap a) : (w'.values T).blocks = (w.values T).blocks := by
  funext a
  simp only [values, hclient]
  split
  · exact h a (by assumption)
  · rfl

/-- **Every block** is the client's or of exactly one object. -/
theorem Sound.owner (h : w.Sound T) (ha : (w.heap a).isSome) :
    (a ∈ w.client ∧ ∀ i o, w.objects i = some o → T.owns o ≠ some a) ∨
      a ∉ w.client ∧ ∃! i, ∃ o, w.objects i = some o ∧ T.owns o = some a := by
  have hbind : ∀ i, owns T w.objects i = some a ↔ ∃ o, w.objects i = some o ∧ T.owns o = some a :=
    fun i => Option.bind_eq_some_iff
  by_cases hclient : a ∈ w.client
  · exact Or.inl ⟨hclient, fun i o hi howns =>
      h.owned.apart i a ((hbind i).mpr ⟨o, hi, howns⟩) hclient⟩
  · obtain ⟨i, hi⟩ := (h.owned.covered a ha).resolve_left hclient
    exact Or.inr ⟨hclient, i, (hbind i).mp hi,
      fun j hj => h.owned.unique j i a ((hbind j).mpr hj) hi⟩

/-- **The client allocates** a block. -/
theorem Sound.allocate (h : w.Sound T) (ha : w.heap a = none) (cells : List α) :
    let w' : World α O ι := { w with
      heap := update w.heap a (some cells), client := insert a w.client }
    w'.Sound T ∧ w'.values T = { w.values T with
      blocks := update (w.values T).blocks a (some cells) } := by
  refine ⟨⟨h.owned.allocate ha cells, fun j o hj b hb =>
    (h.lent j o hj b hb).imp_right Finset.mem_insert_of_mem⟩, Values.ext ?_ ?_⟩
  · funext j
    simp only [values]
    cases hj : w.objects j with
    | none => rfl
    | some o => exact congrArg some (T.value_congr o _ _ ((h.update_of_free ha _).1 j o hj))
  · funext b
    simp only [values]
    rcases eq_or_ne b a with rfl | hne
    · simp
    · simp [hne]

/-- **The client deletes** a block that no object refers to. -/
theorem Sound.discard (h : w.Sound T) (ha : a ∈ w.client) (hunused : w.Unused T a) :
    let w' : World α O ι := { w with heap := update w.heap a none, client := w.client.erase a }
    w'.Sound T ∧ w'.values T = { w.values T with
      blocks := update (w.values T).blocks a none } := by
  have hne : ∀ j o, w.objects j = some o → ∀ b, T.refers o = some b → b ≠ a := by
    rintro j o hj b hb rfl
    exact hunused j o hj hb
  refine ⟨⟨h.owned.discard ha, fun j o hj b hb => (h.lent j o hj b hb).imp_right fun hb' =>
    Finset.mem_erase.mpr ⟨hne j o hj b hb, hb'⟩⟩, Values.ext ?_ ?_⟩
  · funext j
    simp only [values]
    cases hj : w.objects j with
    | none => rfl
    | some o =>
      exact congrArg some (T.value_congr o _ _ fun b hb => update_of_ne (hne j o hj b hb) _ _)
  · funext b
    simp only [values]
    rcases eq_or_ne b a with rfl | hba
    · simp
    · simp [hba]

variable [DecidableEq ι]

theorem owns_update (objects : ι → Option O) (i : ι) (o : Option O) :
    owns T (update objects i o) = update (owns T objects) i (o.bind T.owns) := by
  funext j
  rcases eq_or_ne j i with rfl | hne
  · rw [owns, update_self, update_self]
  · rw [owns, update_of_ne hne, update_of_ne hne, owns]

theorem values_objects {w' : World α O ι} {o : Option O}
    (hobjects : w'.objects = update w.objects i o)
    (h : ∀ j ≠ i, ∀ o, w.objects j = some o → ∀ a, T.refers o = some a →
      w'.heap a = w.heap a) :
    (w'.values T).objects = update (w.values T).objects i (o.map fun o => T.value o w'.heap) := by
  funext j
  simp only [values, hobjects]
  rcases eq_or_ne j i with rfl | hne
  · rw [update_self, update_self]
  · rw [update_of_ne hne, update_of_ne hne]
    cases hj : w.objects j with
    | none => rfl
    | some o => exact congrArg some (T.value_congr o _ _ (h j hne o hj))

/-- What a change of one object has to show: that what the other objects refer to is left alone,
and who owns what. -/
structure Changes (T : ObjectType α O V) (w w' : World α O ι) (i : ι) (o : Option O) : Prop where
  objects : w'.objects = update w.objects i o
  others : ∀ j ≠ i, ∀ o, w.objects j = some o → ∀ a, T.refers o = some a → w'.heap a = w.heap a
  owned : Owned w'.heap (update (owns T w.objects) i (o.bind T.owns)) w'.client
  lent : ∀ b, o = some b → ∀ a, T.refers b = some a → T.owns b = some a ∨ a ∈ w'.client
  lentOthers : ∀ j ≠ i, ∀ o, w.objects j = some o → ∀ a, T.refers o = some a →
    T.owns o = some a ∨ a ∈ w'.client

/-- **A change of one object** keeps the invariant. -/
theorem Changes.sound {w' : World α O ι} {o : Option O} (h : Changes T w w' i o) : w'.Sound T where
  owned := by
    rw [h.objects, owns_update]
    exact h.owned
  lent j b hj := by
    rw [h.objects] at hj
    rcases eq_or_ne j i with rfl | hne
    · rw [update_self] at hj
      exact h.lent b hj
    · rw [update_of_ne hne] at hj
      exact h.lentOthers j hne b hj

/-- **A change of one object** is one of its value. -/
theorem Changes.values_eq {w' : World α O ι} {o : Option O} {v : Option V} {blocks : Heap α}
    (h : Changes T w w' i o) (hvalue : (o.map fun o => T.value o w'.heap) = v)
    (hblocks : (w'.values T).blocks = blocks) :
    w'.values T = ⟨update (w.values T).objects i v, blocks⟩ := by
  subst hvalue
  exact Values.ext (values_objects h.objects h.others) hblocks

/-- **An object changes**, but not what it owns. -/
theorem Sound.change (h : w.Sound T) (howns : T.owns o = owns T w.objects i)
    (hrefers : ∀ a, T.refers o = some a → T.owns o = some a ∨ a ∈ w.client) :
    Changes T w { w with objects := update w.objects i (some o) } i (some o) where
  objects := rfl
  others _ _ _ _ _ _ := rfl
  owned := by
    rw [Option.bind_some, howns, update_eq_self]
    exact h.owned
  lent := by
    rintro _ ⟨⟩
    exact hrefers
  lentOthers j _ := h.lent j

/-- **An object stores** to its block. -/
theorem Sound.store (h : w.Sound T) (hi : w.objects i = some o) (ha : T.owns o = some a)
    (cells : List α) :
    Changes T w { w with heap := update w.heap a (some cells) } i (some o) where
  objects := by rw [← hi, update_eq_self]
  others := (h.update_of_owns hi ha (some cells)).1
  owned := by
    rw [Option.bind_some, ← owns_eq hi, update_eq_self]
    exact h.owned.store (h.owned.live i a ((owns_eq hi).trans ha)) cells
  lent := by
    rintro _ ⟨⟩
    exact h.lent i o hi
  lentOthers j _ := h.lent j

/-- **What an object owns is deleted**, which is no fault and which nobody else notices. -/
theorem Sound.delete (h : w.Sound T) {p : Option ℕ} (hi : owns T w.objects i = p) :
    ∃ heap, Heap.delete w.heap p = .ok heap ∧
      Owned heap (update (owns T w.objects) i none) w.client ∧
      (∀ j ≠ i, ∀ o, w.objects j = some o → ∀ a, T.refers o = some a → heap a = w.heap a) ∧
      (∀ a ∈ w.client, heap a = w.heap a) ∧ ∀ a, w.heap a = none → heap a = none := by
  obtain ⟨heap, hheap, howned, hkeep⟩ := h.owned.destroy p hi
  refine ⟨heap, hheap, howned, ?_, ?_, ?_⟩
  · intro j hne o hj a ha
    exact hkeep a fun hp => h.exclusive (hi.trans hp) hj hne ha
  · intro a ha
    exact hkeep a fun hp => h.owned.apart i a (hi.trans hp) ha
  · intro a ha
    rw [← ha]
    exact hkeep a fun hp => h.owned.ne_of_free ha (hi.trans hp)

/-- **An object that owns nothing any more** is one to change or to destroy. -/
theorem Sound.changes_of_delete (h : w.Sound T) {p : Option ℕ} (hi : owns T w.objects i = p)
    {heap : Heap α} (hheap : Heap.delete w.heap p = .ok heap) {o : Option O}
    (ho : ∀ b, o = some b → T.refers b = none) :
    Changes T w { w with heap, objects := update w.objects i o } i o := by
  obtain ⟨heap', hheap', howned, hothers, -⟩ := h.delete hi
  obtain rfl := Except.ok.inj (hheap.symm.trans hheap')
  refine ⟨rfl, hothers, ?_, ?_, fun j _ => h.lent j⟩
  · have hnone : o.bind T.owns = none := by
      cases hb : o.bind T.owns with
      | none => rfl
      | some a =>
        obtain ⟨b, hb, howns⟩ := Option.bind_eq_some_iff.mp hb
        cases (ho b hb).symm.trans (T.refers_of_owns b a howns)
    rwa [hnone]
  · intro b hb a ha
    cases (ho b hb).symm.trans ha

/-- **An object gets a new block**, where nothing is after its old one was deleted. -/
theorem Sound.replace (h : w.Sound T) {p : Option ℕ} (hi : owns T w.objects i = p) {heap : Heap α}
    (hheap : Heap.delete w.heap p = .ok heap) (ha : heap a = none) (cells : List α)
    (howns : T.owns o = some a) (hrefers : ∀ b, T.refers o = some b → b = a) :
    Changes T w { w with
      heap := update heap a (some cells)
      objects := update w.objects i (some o) } i (some o) ∧
      ∀ b ∈ w.client, update heap a (some cells) b = w.heap b := by
  obtain ⟨heap', hheap', howned, hothers, hclient, -⟩ := h.delete hi
  obtain rfl := Except.ok.inj (hheap.symm.trans hheap')
  have hold : ∀ b, heap b = w.heap b → (w.heap b).isSome →
      update heap a (some cells) b = w.heap b := by
    intro b hb hlive
    rw [update_of_ne, hb]
    rintro rfl
    rw [← hb, ha] at hlive
    cases hlive
  refine ⟨⟨rfl, ?_, ?_, ?_, fun j _ => h.lent j⟩, ?_⟩
  · intro j hne o' hj b hb
    exact hold b (hothers j hne o' hj b hb) (h.live hj hb)
  · have hnew := howned.construct (update_self ..) ha cells
    rwa [update_idem, ← howns] at hnew
  · rintro _ ⟨⟩ b hb
    exact Or.inl (hrefers b hb ▸ howns)
  · intro b hb
    exact hold b (hclient b hb) (h.owned.held b hb)

/-- **An object is constructed** with a block of its own. -/
theorem Sound.construct (h : w.Sound T) (hi : w.objects i = none) (ha : w.heap a = none)
    (cells : List α) (howns : T.owns o = some a) (hrefers : ∀ b, T.refers o = some b → b = a) :
    Changes T w { w with
      heap := update w.heap a (some cells)
      objects := update w.objects i (some o) } i (some o) ∧
      ∀ b ∈ w.client, update w.heap a (some cells) b = w.heap b :=
  h.replace (owns_eq_none hi) rfl ha cells howns hrefers

end World

end CppCore.Lib
