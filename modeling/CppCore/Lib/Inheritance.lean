import Mathlib.Data.Finset.Union
import Mathlib.Data.Set.Card
import Mathlib.Logic.Relation

/-!
# Inheriting definitions

Nodes derive from other nodes, and each node gives definitions to names.  Of the definitions that a
node has from itself and its bases, those nobody behind them overrides are the nearest, and those
with nothing left to override are the farthest.

A node may collect its definitions from its bases one after another, in any order and from bases
that have collected some of theirs already.  If what comes later always replaces what is there, the
node ends up with a farthest definition.

## Main definitions

* `Acyclic`, `exists_rank` — no node derives from itself; then nodes have ranks.
* `Nearest`, `Farthest` — a base whose definition is not overridden; one that overrides none.
* `BasesAgree` — bases of a node that do not derive from one another do not disagree.
* `Collecting` — what a node has collected, and the bases it still has to visit.
* `Collecting.visit`, `Collecting.done` — visiting one base; the end.
* `ResolvesToNearest`, `resolvesToNearest_iff` — when the definitions found are the nearest.
-/

namespace CppCore.Lib

open Relation

universe u v w
variable {κ : Type u} {ι : Type v} {δ : Type w} {R : κ → κ → Prop} {defs : κ → ι → Option δ}

/-! ## Ranks -/

/-- No node derives from itself. -/
def Acyclic (R : κ → κ → Prop) : Prop := ∀ a, ¬ TransGen R a a

/-- Nodes with ranks that fall along the relation are acyclic. -/
theorem Acyclic.of_rank (rank : κ → ℕ) (hrank : ∀ a b, R a b → rank b < rank a) : Acyclic R := by
  have hfalls : ∀ a b, TransGen R a b → rank b < rank a := by
    intro a b hab
    induction hab with
    | single h => exact hrank _ _ h
    | tail _ h ih => exact (hrank _ _ h).trans ih
  intro a ha
  exact lt_irrefl _ (hfalls a a ha)

/-- The number of nodes in `s` that a node derives from. -/
noncomputable def rank (R : κ → κ → Prop) (s : Finset κ) (a : κ) : ℕ :=
  {b | b ∈ s ∧ TransGen R a b}.ncard

theorem rank_lt {s : Finset κ} {a b : κ} (h : Acyclic R) (hb : b ∈ s) (hab : TransGen R a b) :
    rank R s b < rank R s a := by
  have hfin : {c | c ∈ s ∧ TransGen R a c}.Finite := s.finite_toSet.subset fun c hc => hc.1
  apply Set.ncard_lt_ncard _ hfin
  refine ⟨fun c hc => ⟨hc.1, hab.trans hc.2⟩, ?_⟩
  intro hsub
  exact h b (hsub ⟨hb, hab⟩).2

theorem rank_lt_card {s : Finset κ} {a : κ} (h : Acyclic R) (ha : a ∈ s) :
    rank R s a < s.card := by
  rw [← Set.ncard_coe_finset]
  apply Set.ncard_lt_ncard _ s.finite_toSet
  refine ⟨fun c hc => hc.1, ?_⟩
  intro hsub
  exact h a (hsub ha).2

/-! ## Nearest and farthest definitions -/

/-- The node `b`, reached from `a`, defines `x`, and nothing between them does. -/
structure Nearest (R : κ → κ → Prop) (defs : κ → ι → Option δ) (a : κ) (x : ι) (b : κ) :
    Prop where
  /-- It is the node or one of its bases. -/
  reach : ReflTransGen R a b
  /-- It has a definition. -/
  isSome : (defs b x).isSome
  /-- No base that derives from it has one. -/
  above : ∀ c, ReflTransGen R a c → TransGen R c b → defs c x = none

/-- The node `b`, reached from `a`, defines `x`, and none of its bases does. -/
structure Farthest (R : κ → κ → Prop) (defs : κ → ι → Option δ) (a : κ) (x : ι) (b : κ) :
    Prop where
  /-- It is the node or one of its bases. -/
  reach : ReflTransGen R a b
  /-- It has a definition. -/
  isSome : (defs b x).isSome
  /-- None of its own bases has one. -/
  below : ∀ c, TransGen R b c → defs c x = none

/-- A node that defines the name is the nearest to itself. -/
theorem Nearest.self {a : κ} {x : ι} (h : Acyclic R) (hx : (defs a x).isSome) :
    Nearest R defs a x a where
  reach := ReflTransGen.refl
  isSome := hx
  above _ hac hca := absurd (TransGen.trans_right hac hca) (h a)

theorem Farthest.of_base {a b c : κ} {x : ι} (hab : ReflTransGen R a b)
    (h : Farthest R defs b x c) : Farthest R defs a x c where
  reach := hab.trans h.reach
  isSome := h.isSome
  below := h.below

/-- Where some base defines the name, one is farthest. -/
theorem exists_farthest {s : Finset κ} {a b : κ} {x : ι} (h : Acyclic R)
    (hs : ∀ c x, (defs c x).isSome → c ∈ s) (hab : ReflTransGen R a b) (hx : (defs b x).isSome) :
    ∃ c, Farthest R defs a x c ∧ ReflTransGen R b c := by
  induction hn : rank R s b using Nat.strong_induction_on generalizing b with
  | _ n ih =>
    by_cases hlast : ∀ c, TransGen R b c → defs c x = none
    · exact ⟨b, ⟨hab, hx, hlast⟩, ReflTransGen.refl⟩
    · push Not at hlast
      obtain ⟨c, hbc, hne⟩ := hlast
      have hc : (defs c x).isSome := Option.isSome_iff_ne_none.mpr hne
      have hlt : rank R s c < n := hn ▸ rank_lt h (hs c x hc) hbc
      obtain ⟨d, hd, hcd⟩ := ih _ hlt (hab.trans hbc.to_reflTransGen) hc rfl
      exact ⟨d, hd, hbc.to_reflTransGen.trans hcd⟩

/-- Bases of one node that do not derive from one another define a name alike. -/
def BasesAgree (R : κ → κ → Prop) (defs : κ → ι → Option δ) : Prop :=
  ∀ a b c x, TransGen R a b → TransGen R a c → ¬ TransGen R b c → ¬ TransGen R c b →
    (defs b x).isSome → (defs c x).isSome → defs b x = defs c x

/-- A node and a base of it define a name alike, or one of them not at all. -/
def Unchanged (R : κ → κ → Prop) (defs : κ → ι → Option δ) (a : κ) (x : ι) : Prop :=
  ∀ b, TransGen R a b → (defs a x).isSome → (defs b x).isSome → defs b x = defs a x

/-- All farthest definitions are alike. -/
theorem Farthest.eq {a b c : κ} {x : ι} (h : BasesAgree R defs) (hb : Farthest R defs a x b)
    (hc : Farthest R defs a x c) : defs b x = defs c x := by
  have hnot : ∀ {b c}, Farthest R defs a x b → Farthest R defs a x c → ¬ TransGen R b c := by
    intro b c hb hc hbc
    have hsome := hc.isSome
    rw [hb.below c hbc] at hsome
    cases hsome
  rcases reflTransGen_iff_eq_or_transGen.mp hb.reach with rfl | hab
  · rcases reflTransGen_iff_eq_or_transGen.mp hc.reach with rfl | hbc
    · rfl
    · exact absurd hbc (hnot hb hc)
  rcases reflTransGen_iff_eq_or_transGen.mp hc.reach with rfl | hac
  · exact absurd hab (hnot hc hb)
  · exact h a b c x hab hac (hnot hb hc) (hnot hc hb) hb.isSome hc.isSome

/-- If the nearest definition changes none of those it overrides, all are like it. -/
theorem Nearest.eq {a b c : κ} {x : ι} (h : BasesAgree R defs) (hb : Nearest R defs a x b)
    (hsame : Unchanged R defs b x) (hac : ReflTransGen R a c) (hc : (defs c x).isSome) :
    defs c x = defs b x := by
  by_cases hbc : TransGen R b c
  · exact hsame c hbc hb.isSome hc
  by_cases hcb : TransGen R c b
  · rw [hb.above c hac hcb] at hc
    cases hc
  rcases reflTransGen_iff_eq_or_transGen.mp hb.reach with rfl | hab
  · rcases reflTransGen_iff_eq_or_transGen.mp hac with rfl | hac
    · rfl
    · exact absurd hac hbc
  rcases reflTransGen_iff_eq_or_transGen.mp hac with rfl | hac
  · exact absurd hab hcb
  · exact h a c b x hac hab hcb hbc hc hb.isSome

/-! ## Collecting definitions -/

/-- The node `a` has collected `o` for the name `x`, and still has to visit the bases `todo`: what
it has is a farthest definition, or some base it will visit leads to one. -/
structure Collecting (R : κ → κ → Prop) (defs : κ → ι → Option δ) (a : κ) (x : ι)
    (o : Option δ) (todo : Finset κ) : Prop where
  /-- What has been collected. -/
  collected : ∀ v, o = some v → ∃ f, Farthest R defs a x f ∧
    (defs f x = some v ∨ ∃ k ∈ todo, ReflTransGen R k f)
  /-- No definition has been passed over. -/
  missing : o = none → ∀ b, ReflTransGen R a b → (defs b x).isSome →
    ∃ k ∈ todo, ReflTransGen R k b

/-- A node begins with its own definitions. -/
theorem Collecting.start {s todo : Finset κ} {a : κ} {x : ι} (h : Acyclic R)
    (hs : ∀ c x, (defs c x).isSome → c ∈ s) (htodo : ∀ k, k ∈ todo ↔ R a k) :
    Collecting R defs a x (defs a x) todo where
  collected := by
    intro v hv
    have hx : (defs a x).isSome := by simp [hv]
    obtain ⟨f, hf, -⟩ := exists_farthest h hs (ReflTransGen.refl (a := a)) hx
    refine ⟨f, hf, ?_⟩
    rcases ReflTransGen.cases_head hf.reach with rfl | ⟨k, hak, hkf⟩
    · exact .inl hv
    · exact .inr ⟨k, (htodo k).mpr hak, hkf⟩
  missing := by
    intro hnone b hab hb
    rcases ReflTransGen.cases_head hab with rfl | ⟨k, hak, hkb⟩
    · rw [hnone] at hb
      cases hb
    · exact ⟨k, (htodo k).mpr hak, hkb⟩

/-- **Visiting a base**, which has itself collected `q` and has bases `rest` left: its definition
replaces what is there, and its bases are to be visited too. -/
theorem Collecting.visit [DecidableEq κ] {a k : κ} {x : ι} {o q : Option δ}
    {todo rest : Finset κ} (hk : TransGen R a k) (hrest : k ∉ rest)
    (ha : Collecting R defs a x o todo) (hq : Collecting R defs k x q rest) :
    Collecting R defs a x (q.or o) ((todo ∪ rest).erase k) := by
  have hkept : ∀ l b, l ∈ todo → l ≠ k → ReflTransGen R l b →
      ∃ l ∈ (todo ∪ rest).erase k, ReflTransGen R l b := by
    intro l b hl hne hlb
    exact ⟨l, Finset.mem_erase.mpr ⟨hne, Finset.mem_union_left _ hl⟩, hlb⟩
  have hnew : ∀ b, (∃ l ∈ rest, ReflTransGen R l b) →
      ∃ l ∈ (todo ∪ rest).erase k, ReflTransGen R l b := by
    rintro b ⟨l, hl, hlb⟩
    have hne : l ≠ k := fun heq => hrest (heq ▸ hl)
    exact ⟨l, Finset.mem_erase.mpr ⟨hne, Finset.mem_union_right _ hl⟩, hlb⟩
  -- a base that gave nothing leads on to what is behind it
  have hmoved : q = none → ∀ b, (defs b x).isSome → (∃ l ∈ todo, ReflTransGen R l b) →
      ∃ l ∈ (todo ∪ rest).erase k, ReflTransGen R l b := by
    rintro hnone b hb ⟨l, hl, hlb⟩
    by_cases hlk : l = k
    · exact hnew b (hq.missing hnone b (hlk ▸ hlb) hb)
    · exact hkept l b hl hlk hlb
  cases hval : q with
  | some v =>
    refine ⟨?_, fun h => by cases h⟩
    intro w hw
    obtain ⟨f, hf, hgot⟩ := hq.collected w (hval.trans hw)
    exact ⟨f, hf.of_base hk.to_reflTransGen, hgot.imp_right (hnew f)⟩
  | none =>
    refine ⟨?_, ?_⟩
    · intro w hw
      obtain ⟨f, hf, hgot⟩ := ha.collected w hw
      exact ⟨f, hf, hgot.imp_right (hmoved hval f hf.isSome)⟩
    · intro hw b hab hb
      exact hmoved hval b hb (ha.missing hw b hab hb)

/-- **With no base left to visit** the node has a farthest definition, if there is any. -/
theorem Collecting.done {a : κ} {x : ι} {o : Option δ} (h : Collecting R defs a x o ∅) :
    (∀ v, o = some v → ∃ f, Farthest R defs a x f ∧ defs f x = some v) ∧
      (o = none → ∀ b, ReflTransGen R a b → defs b x = none) := by
  refine ⟨?_, ?_⟩
  · intro v hv
    obtain ⟨f, hf, hgot | ⟨k, hk, -⟩⟩ := h.collected v hv
    · exact ⟨f, hf, hgot⟩
    · exact absurd hk (Finset.notMem_empty k)
  · intro hnone b hab
    by_contra hne
    obtain ⟨k, hk, -⟩ := h.missing hnone b hab (Option.isSome_iff_ne_none.mpr hne)
    exact absurd hk (Finset.notMem_empty k)

/-- If bases agree, what has been collected in the end is determined. -/
theorem Collecting.unique {a : κ} {x : ι} {o q : Option δ} (hagree : BasesAgree R defs)
    (ho : Collecting R defs a x o ∅) (hq : Collecting R defs a x q ∅) : o = q := by
  have hsub : ∀ {o q : Option δ}, Collecting R defs a x o ∅ → Collecting R defs a x q ∅ →
      ∀ v, o = some v → q = some v := by
    intro o q ho hq v hv
    obtain ⟨f, hf, hfv⟩ := ho.done.1 v hv
    cases hw : q with
    | none =>
      have hnone := hq.done.2 hw f hf.reach
      rw [hfv] at hnone
      cases hnone
    | some w =>
      obtain ⟨g, hg, hgw⟩ := hq.done.1 w hw
      rw [← hgw, hg.eq hagree hf, hfv]
  apply Option.ext
  intro v
  exact ⟨hsub ho hq v, hsub hq ho v⟩

/-! ## Resolving names -/

/-- The definitions found are those of the nodes and their bases, one for every name, and of several
the nearest. -/
structure ResolvesToNearest (R : κ → κ → Prop) (defs res : κ → ι → Option δ) : Prop where
  /-- What is found is somebody's definition. -/
  sound : ∀ a x v, res a x = some v → ∃ b, ReflTransGen R a b ∧ defs b x = some v
  /-- What is defined is found. -/
  complete : ∀ a b x, ReflTransGen R a b → (defs b x).isSome → (res a x).isSome
  /-- It is the nearest definition. -/
  nearest : ∀ a x b, Nearest R defs a x b → res a x = defs b x

/-- **When collecting finds the nearest definitions.**  Some names are settled apart from the
collecting, by `settled`; the other names must not be defined differently by a node and a base. -/
theorem resolvesToNearest_iff {res : κ → ι → Option δ} {Settled : κ → ι → Prop}
    {settled : ι → Option δ} (h : Acyclic R) (hagree : BasesAgree R defs)
    (hbase : ∀ a b x, ReflTransGen R a b → Settled b x → Settled a x)
    (hres : ∀ a x, Settled a x → res a x = settled x)
    (hdefs : ∀ a x, Settled a x → ∃ b, ReflTransGen R a b ∧ defs b x = settled x)
    (hsome : ∀ a x, Settled a x → (settled x).isSome)
    (hcollect : ∀ a x, ¬ Settled a x → Collecting R defs a x (res a x) ∅) :
    ResolvesToNearest R defs res ↔
      ∀ a x, Unchanged R defs a x ∨ Settled a x ∧ defs a x = settled x := by
  refine ⟨?_, ?_⟩
  · intro hnear a x
    by_cases hx : (defs a x).isSome
    · have hself : ∀ b, (defs b x).isSome → res b x = defs b x := fun b hb =>
        hnear.nearest b x b (Nearest.self h hb)
      by_cases ha : Settled a x
      · exact .inr ⟨ha, (hself a hx).symm.trans (hres a x ha)⟩
      · refine .inl fun b hab _ hb => ?_
        have hb' : ¬ Settled b x := fun hs => ha (hbase a b x hab.to_reflTransGen hs)
        obtain ⟨v, hv⟩ := Option.isSome_iff_exists.mp hx
        obtain ⟨w, hw⟩ := Option.isSome_iff_exists.mp hb
        obtain ⟨f, hf, hfv⟩ := (hcollect a x ha).done.1 v ((hself a hx).trans hv)
        obtain ⟨g, hg, hgw⟩ := (hcollect b x hb').done.1 w ((hself b hb).trans hw)
        have heq := hf.eq hagree (hg.of_base hab.to_reflTransGen)
        rw [hw, hv, ← hfv, ← hgw, heq]
    · exact .inl fun b _ ha => absurd ha hx
  · intro hcond
    have hfound : ∀ a x v, res a x = some v → ∃ b, ReflTransGen R a b ∧ defs b x = some v := by
      intro a x v hv
      by_cases ha : Settled a x
      · obtain ⟨b, hab, hb⟩ := hdefs a x ha
        exact ⟨b, hab, hb.trans ((hres a x ha).symm.trans hv)⟩
      · obtain ⟨f, hf, hfv⟩ := (hcollect a x ha).done.1 v hv
        exact ⟨f, hf.reach, hfv⟩
    have hall : ∀ a b x, ReflTransGen R a b → (defs b x).isSome → (res a x).isSome := by
      intro a b x hab hb
      by_cases ha : Settled a x
      · rw [hres a x ha]
        exact hsome a x ha
      · by_contra hnot
        have hnone := (hcollect a x ha).done.2 (Option.not_isSome_iff_eq_none.mp hnot) b hab
        rw [hnone] at hb
        cases hb
    refine ⟨hfound, hall, ?_⟩
    intro a x b hb
    rcases hcond b x with hsame | ⟨hset, heq⟩
    · obtain ⟨v, hv⟩ := Option.isSome_iff_exists.mp (hall a b x hb.reach hb.isSome)
      obtain ⟨c, hac, hc⟩ := hfound a x v hv
      rw [hv, ← hc]
      exact hb.eq hagree hsame hac (by simp [hc])
    · rw [hres a x (hbase a b x hb.reach hset), heq]

/-- Where all names are collected, no base may define one differently. -/
theorem resolvesToNearest_iff_unchanged {res : κ → ι → Option δ} (h : Acyclic R)
    (hagree : BasesAgree R defs) (hcollect : ∀ a x, Collecting R defs a x (res a x) ∅) :
    ResolvesToNearest R defs res ↔ ∀ a x, Unchanged R defs a x := by
  have hiff : ResolvesToNearest R defs res ↔
      ∀ a x, Unchanged R defs a x ∨ False ∧ defs a x = none :=
    resolvesToNearest_iff h hagree (fun _ _ _ _ hs => hs) (fun _ _ hs => hs.elim)
      (fun _ _ hs => hs.elim) (fun _ _ hs => hs.elim) (fun a x _ => hcollect a x)
  simpa only [false_and, or_false] using hiff

end CppCore.Lib
