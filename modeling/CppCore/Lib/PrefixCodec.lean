import CppCore.Lib.Machine

/-!
# Readers of a byte source

A reader starts at an offset of its source, returns a value and says where it stopped.  What it
does is described by a relation between the offset before, the value and the offset behind it, so
that a reader may be anything: one that moves back, or one whose loop ends on what it has read.

A reader is *exact* for a value when it finds it precisely where its encoding stands, and stops
just behind.  One direction is the round trip, the other is safety: it fails on every truncated
encoding.  Only sources with at most `bound` bytes and offsets up to `bound` are considered, for
readers whose offset has a fixed width.

## Main definitions

* `Reads` — a reader, again and again.
* `readFor`, `Row` — a counting loop over a reader; its bound may change from turn to turn.
* `readWhile`, `Through` — a loop up to an offset.
* `readFor_eq_ok`, `readWhile_eq_ok` — what these loops do.
* `Exact`, `Exact.seq`, `Exact.reads` — the specification above, for one value and for more.
-/

namespace CppCore.Lib

variable {σ α β γ : Type*}

/-! ## Prefixes at an offset -/

theorem cons_prefix_drop {b : β} {bs l : List β} {i : ℕ} :
    b :: bs <+: l.drop i ↔ l[i]? = some b ∧ bs <+: l.drop (i + 1) := by
  constructor
  · rintro ⟨t, ht⟩
    refine ⟨?_, t, ?_⟩
    · rw [← List.head?_drop, ← ht]
      rfl
    · rw [← List.drop_drop, ← ht]
      rfl
  · rintro ⟨hb, t, ht⟩
    refine ⟨t, ?_⟩
    obtain ⟨hi, rfl⟩ := List.getElem?_eq_some_iff.mp hb
    rw [List.drop_eq_getElem_cons hi, ← ht]
    rfl

theorem append_prefix_drop {as bs l : List β} {i : ℕ} :
    as ++ bs <+: l.drop i ↔ as <+: l.drop i ∧ bs <+: l.drop (i + as.length) := by
  induction as generalizing i with
  | nil => simp
  | cons a as ih =>
    rw [List.cons_append, cons_prefix_drop, cons_prefix_drop, ih, and_assoc, List.length_cons,
      show i + 1 + as.length = i + (as.length + 1) by omega]

/-- A non-empty encoding found at an offset ends inside the list. -/
theorem end_le_of_prefix_drop {bs l : List β} {i : ℕ} (h : bs <+: l.drop i) (hne : bs ≠ []) :
    i + bs.length ≤ l.length := by
  have hle := h.length_le
  have hpos := List.length_pos_of_ne_nil hne
  rw [List.length_drop] at hle
  omega

/-- An encoding found at an offset within the bound ends within the bound. -/
theorem end_le_bound {bs l : List β} {i bound : ℕ} (h : bs <+: l.drop i) (hl : l.length ≤ bound)
    (hi : i ≤ bound) : i + bs.length ≤ bound := by
  by_cases hne : bs = []
  · simpa [hne] using hi
  · exact (end_le_of_prefix_drop h hne).trans hl

/-- A list that stands in itself at an offset is empty or stands there from the start. -/
theorem prefix_drop_self {l : List β} {i : ℕ} : l <+: l.drop i ↔ l = [] ∨ i = 0 := by
  constructor
  · intro h
    by_cases hne : l = []
    · exact Or.inl hne
    · have := end_le_of_prefix_drop h hne
      exact Or.inr (by omega)
  · rintro (rfl | rfl) <;> simp

/-! ## Loops -/

/-- Values read one after the other, each where the one before it stopped. -/
def Reads (P : ℕ → α → ℕ → Prop) : ℕ → List α → ℕ → Prop
  | i, [], j => j = i
  | i, a :: as, j => ∃ m, P i a m ∧ Reads P m as j

/-- A reader that takes the values from others. -/
theorem reads_map {P : ℕ → γ → ℕ → Prop} {f : α → γ} {as : List α} {i j : ℕ} :
    Reads P i (as.map f) j ↔ Reads (fun i a j => P i (f a) j) i as j := by
  induction as generalizing i with
  | nil => rfl
  | cons a as ih => simp only [List.map_cons, Reads, ih]

/-- `for (k = 0; k < limit; k++)`, the bound being computed again before every turn, from the
counter and the offset. -/
def readFor (limit : ℕ → ℕ → ℕ) (dec : σ → ℕ → Exec (α × ℕ)) (s : σ) :
    ℕ → ℕ → ℕ → Exec (List α × ℕ)
  | 0, _, _ => .error .outOfFuel
  | fuel + 1, k, i =>
    if k < limit k i then do
      let (a, i) ← dec s i
      let (as, i) ← readFor limit dec s fuel (k + 1) i
      .ok (a :: as, i)
    else
      .ok ([], i)

/-- The values such a loop reads from the turn `k` on. -/
def Row (limit : ℕ → ℕ → ℕ) (P : ℕ → α → ℕ → Prop) : ℕ → ℕ → List α → ℕ → Prop
  | k, i, [], j => limit k i ≤ k ∧ j = i
  | k, i, a :: as, j => k < limit k i ∧ ∃ m, P i a m ∧ Row limit P (k + 1) m as j

/-- **A counting loop** whose counter stays below `bound` ends unless its reader fails. -/
theorem readFor_eq_ok {limit : ℕ → ℕ → ℕ} {dec : σ → ℕ → Exec (α × ℕ)} {s : σ}
    {P : ℕ → α → ℕ → Prop} (hdec : ∀ i a j, dec s i = .ok (a, j) ↔ P i a j) {bound : ℕ}
    (hlimit : ∀ k i, k < limit k i → k < bound) {fuel k : ℕ} (hk : k ≤ bound)
    (hfuel : k + fuel = bound + 1) {i : ℕ} {as : List α} {j : ℕ} :
    readFor limit dec s fuel k i = .ok (as, j) ↔ Row limit P k i as j := by
  induction fuel generalizing k i as with
  | zero => omega
  | succ fuel ih =>
    rw [readFor]
    by_cases hturn : k < limit k i
    · have hrest : ∀ m as, readFor limit dec s fuel (k + 1) m = .ok (as, j) ↔
          Row limit P (k + 1) m as j :=
        fun m as => ih (hlimit k i hturn) (by omega)
      simp only [if_pos hturn, Exec.bind_eq_ok, Prod.exists, Except.ok.injEq, Prod.mk.injEq, hdec]
      constructor
      · rintro ⟨a, m, ha, as, j', has, rfl, rfl⟩
        exact ⟨hturn, m, ha, (hrest m as).mp has⟩
      · intro h
        cases as with
        | nil => exact absurd hturn (not_lt.mpr h.1)
        | cons a as =>
          obtain ⟨-, m, ha, has⟩ := h
          exact ⟨a, m, ha, as, j, (hrest m as).mpr has, rfl, rfl⟩
    · simp only [if_neg hturn, Except.ok.injEq, Prod.mk.injEq]
      cases as with
      | nil => exact ⟨fun h => ⟨not_lt.mp hturn, h.2.symm⟩, fun h => ⟨rfl, h.2.symm⟩⟩
      | cons a as => exact ⟨fun h => (by simp at h), fun h => absurd h.1 hturn⟩

/-- A loop with a fixed bound reads as many values. -/
theorem row_const {P : ℕ → α → ℕ → Prop} {n k : ℕ} (hk : k ≤ n) {i : ℕ} {as : List α} {j : ℕ} :
    Row (fun _ _ => n) P k i as j ↔ k + as.length = n ∧ Reads P i as j := by
  induction as generalizing k i with
  | nil =>
    simp only [Row, Reads, List.length_nil]
    exact and_congr_left fun _ => by omega
  | cons a as ih =>
    simp only [Row, Reads, List.length_cons]
    constructor
    · rintro ⟨hlt, m, ha, has⟩
      obtain ⟨hlen, has⟩ := (ih hlt).mp has
      exact ⟨by omega, m, ha, has⟩
    · rintro ⟨hlen, m, ha, has⟩
      exact ⟨by omega, m, ha, (ih (by omega)).mpr ⟨by omega, has⟩⟩

/-- What is true of every value the reader finds is true of those of a loop. -/
theorem Row.forall {limit : ℕ → ℕ → ℕ} {P : ℕ → α → ℕ → Prop} {valid : α → Prop}
    (hP : ∀ i a j, P i a j → valid a) {k i : ℕ} {as : List α} {j : ℕ}
    (h : Row limit P k i as j) : ∀ a ∈ as, valid a := by
  induction as generalizing k i with
  | nil => simp
  | cons a as ih =>
    obtain ⟨-, m, ha, has⟩ := h
    exact List.forall_mem_cons.mpr ⟨hP i a m ha, ih has⟩

/-- A loop whose bound is its counter reads nothing. -/
theorem row_counter {P : ℕ → α → ℕ → Prop} {k i : ℕ} {as : List α} {j : ℕ} :
    Row (fun k _ => k) P k i as j ↔ as = [] ∧ j = i := by
  cases as with
  | nil => simp [Row]
  | cons a as => simp [Row]

/-- Read values in a row as long as the offset is before `len`. -/
def readWhile (dec : σ → ℕ → Exec (α × ℕ)) (len : ℕ) (s : σ) : ℕ → ℕ → Exec (List α)
  | 0, _ => .error .outOfFuel
  | fuel + 1, i =>
    if i < len then do
      let (a, j) ← dec s i
      let as ← readWhile dec len s fuel j
      .ok (a :: as)
    else
      .ok []

/-- The values such a loop reads from an offset on. -/
def Through (len : ℕ) (P : ℕ → α → ℕ → Prop) : ℕ → List α → Prop
  | i, [] => len ≤ i
  | i, a :: as => i < len ∧ ∃ j, P i a j ∧ Through len P j as

theorem through_map {P : ℕ → γ → ℕ → Prop} {f : α → γ} {len : ℕ} {as : List α} {i : ℕ} :
    Through len P i (as.map f) ↔ Through len (fun i a j => P i (f a) j) i as := by
  induction as generalizing i with
  | nil => rfl
  | cons a as ih => simp only [List.map_cons, Through, ih]

/-- **A loop up to an offset** takes a turn for each value, and one to see that it is there. -/
theorem readWhile_eq_ok {dec : σ → ℕ → Exec (α × ℕ)} {s : σ} {P : ℕ → α → ℕ → Prop}
    (hdec : ∀ i a j, dec s i = .ok (a, j) ↔ P i a j) {len fuel i : ℕ} {as : List α} :
    readWhile dec len s fuel i = .ok as ↔ Through len P i as ∧ as.length < fuel := by
  induction fuel generalizing i as with
  | zero => simp [readWhile]
  | succ fuel ih =>
    rw [readWhile]
    by_cases hlt : i < len
    · simp only [if_pos hlt, Exec.bind_eq_ok, Prod.exists, Except.ok.injEq, hdec, ih]
      constructor
      · rintro ⟨a, j, ha, as, ⟨has, hlen⟩, rfl⟩
        exact ⟨⟨hlt, j, ha, has⟩, Nat.succ_lt_succ hlen⟩
      · intro h
        cases as with
        | nil => exact absurd hlt (not_lt.mpr h.1)
        | cons a as =>
          obtain ⟨⟨-, j, ha, has⟩, hlen⟩ := h
          exact ⟨a, j, ha, as, ⟨has, Nat.lt_of_succ_lt_succ hlen⟩, rfl⟩
    · simp only [if_neg hlt, Except.ok.injEq]
      cases as with
      | nil => exact ⟨fun _ => ⟨not_lt.mp hlt, Nat.succ_pos _⟩, fun _ => rfl⟩
      | cons a as => exact ⟨fun h => (by cases h), fun h => absurd h.1.1 hlt⟩

/-- A reader that stays where it is never gets to the end. -/
theorem not_through_of_stuck {P : ℕ → α → ℕ → Prop} {len i : ℕ} (hi : i < len)
    (hstuck : ∀ a j, P i a j → j = i) (as : List α) : ¬Through len P i as := by
  induction as with
  | nil => exact not_le.mpr hi
  | cons a as ih =>
    rintro ⟨-, j, ha, has⟩
    obtain rfl := hstuck a j ha
    exact ih has

/-! ## Exact readers -/

/-- A reader stops at `j`, having started at `i`, exactly when `bs` stands at `i` and ends at `j`;
unless the value is one it never finds. -/
def Exact (l : List β) (bound : ℕ) (found : ℕ → ℕ → Prop) (visible : Prop) (bs : List β) : Prop :=
  ∀ i j, i ≤ bound → (found i j ↔ visible ∧ bs <+: l.drop i ∧ j = i + bs.length)

namespace Exact

variable {l : List β} {bound : ℕ}

/-- Nothing is read. -/
theorem nil : Exact l bound (fun i j => j = i) True [] := by
  intro i j _
  simp

/-- **Sequencing.**  Two values in a row are found where the encodings stand in a row. -/
theorem seq (hl : l.length ≤ bound) {P Q : ℕ → ℕ → Prop} {v w : Prop} {bs cs : List β}
    (hP : Exact l bound P v bs) (hQ : Exact l bound Q w cs) :
    Exact l bound (fun i j => ∃ k, P i k ∧ Q k j) (v ∧ w) (bs ++ cs) := by
  intro i j hi
  constructor
  · rintro ⟨k, hp, hq⟩
    obtain ⟨hv, hbs, rfl⟩ := (hP i k hi).mp hp
    obtain ⟨hw, hcs, rfl⟩ := (hQ _ j (end_le_bound hbs hl hi)).mp hq
    exact ⟨⟨hv, hw⟩, append_prefix_drop.mpr ⟨hbs, hcs⟩, by simp [Nat.add_assoc]⟩
  · rintro ⟨⟨hv, hw⟩, h, rfl⟩
    obtain ⟨hbs, hcs⟩ := append_prefix_drop.mp h
    exact ⟨_, (hP i _ hi).mpr ⟨hv, hbs, rfl⟩, (hQ _ _ (end_le_bound hbs hl hi)).mpr
      ⟨hw, hcs, by simp [Nat.add_assoc]⟩⟩

/-- So are any number of values. -/
theorem reads (hl : l.length ≤ bound) {P : ℕ → α → ℕ → Prop} {visible : α → Prop}
    {enc : α → List β} {as : List α}
    (h : ∀ a ∈ as, Exact l bound (fun i j => P i a j) (visible a) (enc a)) :
    Exact l bound (fun i j => Reads P i as j) (∀ a ∈ as, visible a) (as.flatMap enc) := by
  induction as with
  | nil => simpa [Reads] using Exact.nil
  | cons a as ih =>
    obtain ⟨ha, has⟩ := List.forall_mem_cons.mp h
    simpa only [Reads, List.forall_mem_cons, List.flatMap_cons] using ha.seq hl (ih has)

/-- **A loop to the end** of a row of encodings gets there exactly when they take room and are
found. -/
theorem through (hl : l.length ≤ bound) {P : ℕ → α → ℕ → Prop}
    (hstop : ∀ i a j b k, P i a j → P i b k → j = k) {visible : α → Prop}
    {enc : α → List β} {as : List α}
    (h : ∀ a ∈ as, Exact l bound (fun i j => P i a j) (visible a) (enc a)) {i : ℕ} (hi : i ≤ bound)
    (hdrop : l.drop i = as.flatMap enc) :
    Through l.length P i as ↔ ∀ a ∈ as, visible a ∧ enc a ≠ [] := by
  induction as generalizing i with
  | nil => simpa [Through] using hdrop
  | cons a as ih =>
    obtain ⟨ha, has⟩ := List.forall_mem_cons.mp h
    rw [List.flatMap_cons] at hdrop
    have hpre : enc a <+: l.drop i := ⟨_, hdrop.symm⟩
    have hrest : l.drop (i + (enc a).length) = as.flatMap enc := by
      rw [← List.drop_drop, hdrop, List.drop_left]
    have ih := ih has (end_le_bound hpre hl hi) hrest
    rw [Through, List.forall_mem_cons, ← ih]
    constructor
    · rintro ⟨hlt, j, hj, hthrough⟩
      obtain ⟨hv, -, rfl⟩ := (ha i j hi).mp hj
      refine ⟨⟨hv, fun hnil => ?_⟩, hthrough⟩
      rw [hnil, List.length_nil, Nat.add_zero] at hthrough
      rw [hnil, List.length_nil, Nat.add_zero] at hj
      exact not_through_of_stuck hlt (fun b k hb => hstop i b k a i hb hj) as hthrough
    · rintro ⟨⟨hv, hne⟩, hthrough⟩
      have := end_le_of_prefix_drop hpre hne
      have hpos := List.length_pos_of_ne_nil hne
      exact ⟨by omega, _, (ha i _ hi).mpr ⟨hv, hpre, rfl⟩, hthrough⟩

end Exact

end CppCore.Lib
