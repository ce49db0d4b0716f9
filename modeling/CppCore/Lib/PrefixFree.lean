import Mathlib.Computability.Language
import Mathlib.Order.Antichain
import Mathlib.Order.WellFounded

/-!
# Prefix-free languages

A reader that finds the end of a word by itself reads a language in which no word begins with
another one.  A text then begins with one word at most, and products of such languages are taken
apart in one way.  A text that does not begin with a word may be the beginning of one; the shortest
of these says how much is missing.

## Main definitions

* `PrefixFree` — no word begins with another one.
* `Front` — a text begins with a word.
* `Shortest` — a shortest word that begins with a text.
* `Within` — the shortest words are at most so much longer than the texts.
* `PrefixFree.mul`, `Shortest.mul_front`, `Shortest.mul_cut`, `Within.mul` — products.
-/

namespace CppCore.Lib

universe u
variable {α : Type u} {L M : Language α} {a l m text rest : List α}

/-- No word begins with another one. -/
def PrefixFree (L : Language α) : Prop := IsAntichain (fun l l' : List α => l <+: l') L

/-- The text begins with a word. -/
def Front (L : Language α) (text : List α) : Prop := ∃ l ∈ L, l <+: text

/-- A shortest word among those that begin with the text. -/
def Shortest (L : Language α) (text l : List α) : Prop :=
  l ∈ L ∧ text <+: l ∧ ∀ l' ∈ L, text <+: l' → l.length ≤ l'.length

/-- A text begins with a word, or a word that is at most `n` longer begins with the text. -/
def Within (L : Language α) (n : ℕ) : Prop :=
  ∀ text, Front L text ∨ ∃ l ∈ L, text <+: l ∧ l.length ≤ text.length + n

/-! ## Words at the front -/

/-- **A text begins with one word.** -/
theorem PrefixFree.unique (hL : PrefixFree L) (hl : l ∈ L) (hm : m ∈ L) (hlt : l <+: text)
    (hmt : m <+: text) : l = m := by
  rcases List.prefix_or_prefix_of_prefix hlt hmt with h | h
  · exact hL.eq hl hm h
  · exact (hL.eq hm hl h).symm

theorem prefixFree_one : PrefixFree (1 : Language α) := by
  intro l hl m hm hne
  rw [(Language.mem_one l).mp hl, (Language.mem_one m).mp hm] at hne
  exact absurd rfl hne

/-- What two words of a product have in common begins with the same first word. -/
theorem PrefixFree.mul (hL : PrefixFree L) (hM : PrefixFree M) : PrefixFree (L * M) := by
  intro l hl l' hl' hne hpre
  obtain ⟨a, ha, m, hm, rfl⟩ := Language.mem_mul.mp hl
  obtain ⟨a', ha', m', hm', rfl⟩ := Language.mem_mul.mp hl'
  obtain rfl : a = a' :=
    hL.unique ha ha' ((List.prefix_append a m).trans hpre) (List.prefix_append a' m')
  have hpre' : m <+: m' := (List.prefix_append_right_inj a).mp hpre
  exact hne (by rw [hM.eq hm hm' hpre'])

theorem front_one (text : List α) : Front 1 text := ⟨[], Language.nil_mem_one, List.nil_prefix⟩

/-- Behind the first word comes the second one. -/
theorem front_mul_iff (hL : PrefixFree L) (ha : a ∈ L) :
    Front (L * M) (a ++ rest) ↔ Front M rest := by
  constructor
  · rintro ⟨l, hl, hpre⟩
    obtain ⟨a', ha', m, hm, rfl⟩ := Language.mem_mul.mp hl
    obtain rfl : a' = a :=
      hL.unique ha' ha ((List.prefix_append a' m).trans hpre) (List.prefix_append a rest)
    exact ⟨m, hm, (List.prefix_append_right_inj a').mp hpre⟩
  · rintro ⟨m, hm, hpre⟩
    exact ⟨a ++ m, Language.append_mem_mul ha hm, (List.prefix_append_right_inj a).mpr hpre⟩

/-- A text that is cut off inside of the first word begins it. -/
theorem prefix_of_not_front (hcut : ¬Front L text) (ha : a ∈ L) (hpre : text <+: a ++ m) :
    text <+: a :=
  (List.prefix_or_prefix_of_prefix hpre (List.prefix_append a m)).resolve_right
    fun h => hcut ⟨a, ha, h⟩

/-! ## Shortest words -/

/-- Where there is a word, there is a shortest one. -/
theorem Shortest.exists (hl : l ∈ L) (hpre : text <+: l) : ∃ m, Shortest L text m := by
  obtain ⟨m, ⟨hm, hmpre⟩, hmin⟩ := (measure List.length).wf.has_min
    {m | m ∈ L ∧ text <+: m} ⟨l, hl, hpre⟩
  exact ⟨m, hm, hmpre, fun l' hl' hpre' => Nat.le_of_not_lt (hmin l' ⟨hl', hpre'⟩)⟩

/-- Behind a first word that is there the second one is the shortest. -/
theorem Shortest.mul_front (hL : PrefixFree L) (ha : a ∈ L) (h : Shortest (L * M) (a ++ rest) l) :
    ∃ m, l = a ++ m ∧ Shortest M rest m := by
  obtain ⟨hl, hpre, hmin⟩ := h
  obtain ⟨a', ha', m, hm, rfl⟩ := Language.mem_mul.mp hl
  obtain rfl : a' = a := hL.unique ha' ha (List.prefix_append a' m)
    ((List.prefix_append a rest).trans hpre)
  refine ⟨m, rfl, hm, (List.prefix_append_right_inj a').mp hpre, fun m' hm' hpre' => ?_⟩
  have hle := hmin (a' ++ m') (Language.append_mem_mul ha' hm')
    ((List.prefix_append_right_inj a').mpr hpre')
  simpa using hle

/-- Where the first word is cut off both are the shortest. -/
theorem Shortest.mul_cut (hcut : ¬Front L text) (h : Shortest (L * M) text l) :
    ∃ a m, l = a ++ m ∧ Shortest L text a ∧ Shortest M [] m := by
  obtain ⟨hl, hpre, hmin⟩ := h
  obtain ⟨a, ha, m, hm, rfl⟩ := Language.mem_mul.mp hl
  have hpre' := prefix_of_not_front hcut ha hpre
  refine ⟨a, m, rfl, ⟨ha, hpre', fun a' ha' hpre'' => ?_⟩, hm, List.nil_prefix, fun m' hm' _ => ?_⟩
  · have hle := hmin (a' ++ m) (Language.append_mem_mul ha' hm)
      (hpre''.trans (List.prefix_append a' m))
    simpa using hle
  · have hle := hmin (a ++ m') (Language.append_mem_mul ha hm')
      (hpre'.trans (List.prefix_append a m'))
    simpa using hle

/-! ## How much is missing -/

/-- There is a word of at most that length. -/
theorem Within.exists_length_le {n : ℕ} (h : Within L n) : ∃ l ∈ L, l.length ≤ n := by
  rcases h [] with ⟨l, hl, hpre⟩ | ⟨l, hl, -, hle⟩
  · exact ⟨l, hl, by rw [List.prefix_nil.mp hpre]; exact Nat.zero_le n⟩
  · exact ⟨l, hl, hle.trans (Nat.zero_add n).le⟩

theorem Within.mul {n k : ℕ} (hL : Within L n) (hM : Within M k) : Within (L * M) (n + k) := by
  intro text
  rcases hL text with ⟨a, ha, rest, rfl⟩ | ⟨a, ha, hpre, hle⟩
  · rcases hM rest with ⟨m, hm, hpre⟩ | ⟨m, hm, hpre, hle⟩
    · exact .inl ⟨a ++ m, Language.append_mem_mul ha hm, (List.prefix_append_right_inj a).mpr hpre⟩
    · refine .inr ⟨a ++ m, Language.append_mem_mul ha hm,
        (List.prefix_append_right_inj a).mpr hpre, ?_⟩
      simp only [List.length_append]
      omega
  · obtain ⟨m, hm, hlen⟩ := hM.exists_length_le
    refine .inr ⟨a ++ m, Language.append_mem_mul ha hm, hpre.trans (List.prefix_append a m), ?_⟩
    simp only [List.length_append]
    omega

/-- Where no word is at the front there is a shortest one, which is not much longer. -/
theorem Within.exists_shortest {n : ℕ} (h : Within L n) (hcut : ¬Front L text) :
    ∃ l, Shortest L text l ∧ l.length ≤ text.length + n := by
  obtain ⟨l, hl, hpre, hle⟩ := (h text).resolve_left hcut
  obtain ⟨m, hm⟩ := Shortest.exists hl hpre
  exact ⟨m, hm, (hm.2.2 l hl hpre).trans hle⟩

end CppCore.Lib
