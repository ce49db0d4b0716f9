import CppCore.Generator.PacketMerge

/-!
# Which definitions a merged packet holds

A base that is merged into a packet replaces the definitions the packet has.  What is left in the
end is therefore the definition of the farthest base, where the packet or a nearer base has another
one; the order in which packets are merged does not matter.  Global params are looked up last, and
replace everything.

## Main definitions

* `Agreeing` — bases that do not derive from one another do not disagree.
* `MergesToNearest` — the definitions merging should leave, in any order of merging.
* `NeverRedefines` — no description redefines what one of its bases defines.
* `MergedAll.resolved_iff` — which definitions merged packets hold.
* `mergesToNearest_iff` — merging resolves names to the nearest definitions.
-/

namespace CppCore.Generator.Request

open Lib Relation

variable {globals : Dict String Param} {packets : Dict Key Packet}

/-! ## What merging needs -/

private theorem bind_ok {α β ε : Type} {x : Except ε α} {f : α → Except ε β} {b : β}
    (h : x >>= f = .ok b) : ∃ a, x = .ok a ∧ f a = .ok b := by
  cases x with
  | error e => cases h
  | ok a => exact ⟨a, rfl, h⟩

/-- A base that is visited is there; what is referred to stays referred to. -/
theorem merge_item_ok {store : Dict Key Packet} {self k : Key} {p q : Packet}
    (h : merge_item store self p k = .ok q) :
    (k = self ∨ k ∈ store) ∧ p.param_refs ⊆ q.param_refs := by
  rw [merge_item] at h
  split at h
  · cases h
  · rename_i other hother
    refine ⟨Finmap.mem_insert.mp (Finmap.mem_of_lookup_eq_some hother), ?_⟩
    rw [← Except.ok.inj h]
    exact Finset.subset_union_left

theorem foldlM_merge_item_ok {store : Dict Key Packet} {self : Key} {keys : List Key}
    {p q : Packet} (h : keys.foldlM (merge_item store self) p = .ok q) :
    (∀ k ∈ keys, k = self ∨ k ∈ store) ∧ p.param_refs ⊆ q.param_refs := by
  induction keys generalizing p with
  | nil =>
    obtain rfl : p = q := Except.ok.inj h
    simp
  | cons k keys ih =>
    rw [List.foldlM_cons] at h
    obtain ⟨r, hr, hrest⟩ := bind_ok h
    obtain ⟨hk, hsub⟩ := merge_item_ok hr
    obtain ⟨hkeys, hsub'⟩ := ih hrest
    refine ⟨?_, hsub.trans hsub'⟩
    intro l hl
    rcases List.mem_cons.mp hl with rfl | hl
    · exact hk
    · exact hkeys l hl

theorem merge_derives_ok {order : IterationOrder} {store : Dict Key Packet} {self : Key}
    {fuel : ℕ} {p q : Packet} (h : merge_derives order store self fuel p = .ok q) :
    (∀ k ∈ p.derives, k = self ∨ k ∈ store) ∧ p.param_refs ⊆ q.param_refs := by
  induction fuel generalizing p with
  | zero =>
    rw [merge_derives] at h
    split at h
    · rename_i hempty
      obtain rfl : p = q := Except.ok.inj h
      simp [hempty]
    · cases h
  | succ fuel ih =>
    rw [merge_derives] at h
    split at h
    · rename_i hempty
      obtain rfl : p = q := Except.ok.inj h
      simp [hempty]
    · obtain ⟨r, hr, hrest⟩ := bind_ok h
      obtain ⟨hkeys, hsub⟩ := foldlM_merge_item_ok hr
      exact ⟨fun k hk => hkeys k ((order.mem_items p k).mpr hk), hsub.trans (ih hrest).2⟩

/-- The global params of the list are there. -/
theorem foldlM_merge_ref_ok {ids : List String} {p q : Packet}
    (h : ids.foldlM (merge_ref globals) p = .ok q) : ∀ x ∈ ids, (globals.lookup x).isSome := by
  induction ids generalizing p with
  | nil => simp
  | cons id ids ih =>
    rw [List.foldlM_cons] at h
    obtain ⟨r, hr, hrest⟩ := bind_ok h
    intro x hx
    rcases List.mem_cons.mp hx with rfl | hx
    · rw [merge_ref] at hr
      split at hr
      · cases hr
      · rename_i real_param hreal
        exact Option.isSome_iff_exists.mpr ⟨real_param, hreal⟩
    · exact ih hrest x hx

theorem merge_packet_ok {order : IterationOrder} {store : Dict Key Packet} {self : Key}
    {fuel : ℕ} {p q : Packet} (h : merge_packet order globals fuel store self p = .ok q) :
    (∀ k ∈ p.derives, k = self ∨ k ∈ store) ∧
      ∀ x ∈ p.param_refs, (globals.lookup x).isSome := by
  obtain ⟨r, hr, hrest⟩ := bind_ok h
  obtain ⟨hkeys, hsub⟩ := merge_derives_ok hr
  refine ⟨hkeys, ?_⟩
  intro x hx
  exact foldlM_merge_ref_ok hrest x ((order.mem_values r x).mpr (hsub hx))

/-- If merging succeeds, all bases and all global params of the packets in the list are there. -/
theorem foldlM_merge_one_ok {order : IterationOrder} {fuel : ℕ} {keys : List Key}
    {store merged : Dict Key Packet} (hnodup : keys.Nodup)
    (hkept : ∀ a ∈ keys, store.lookup a = packets.lookup a)
    (hmem : ∀ a, a ∈ store ↔ a ∈ packets)
    (h : keys.foldlM (merge_one order globals fuel) store = .ok merged) :
    ∀ a ∈ keys, ∀ p, packets.lookup a = some p →
      (∀ k ∈ p.derives, k ∈ packets) ∧ ∀ x ∈ p.param_refs, (globals.lookup x).isSome := by
  induction keys generalizing store with
  | nil => simp
  | cons self keys ih =>
    rw [List.foldlM_cons] at h
    obtain ⟨next, hone, hrest⟩ := bind_ok h
    rw [merge_one] at hone
    split at hone
    · cases hone
    rename_i p hp
    obtain ⟨q, hq, hnext⟩ := bind_ok hone
    obtain rfl : store.insert self q = next := Except.ok.inj hnext
    obtain ⟨hderives, hrefs⟩ := merge_packet_ok hq
    have hself : self ∈ packets := (hmem self).mp (Finmap.mem_of_lookup_eq_some hp)
    intro a ha r hr
    rcases List.mem_cons.mp ha with rfl | ha
    · rw [hkept a (by simp), hr] at hp
      obtain rfl := Option.some.inj hp
      refine ⟨?_, hrefs⟩
      intro k hk
      rcases hderives k hk with rfl | hstore
      · exact hself
      · exact (hmem k).mp hstore
    · refine ih (List.nodup_cons.mp hnodup).2 ?_ ?_ hrest a ha r hr
      · intro b hb
        have hne : b ≠ self := fun heq => (List.nodup_cons.mp hnodup).1 (heq ▸ hb)
        rw [Finmap.lookup_insert_of_ne _ hne]
        exact hkept b (by simp [hb])
      · intro b
        rw [Finmap.mem_insert, hmem b, or_iff_right_iff_imp]
        rintro rfl
        exact hself

/-! ## The nearest definitions -/

/-- Packets that are bases of one packet and not of each other do not define an id or a name
differently. -/
structure Agreeing (globals : Dict String Param) (packets : Dict Key Packet) : Prop where
  enums : BasesAgree (DerivesFrom packets) (defines Packet.enums packets)
  structs : BasesAgree (DerivesFrom packets) (defines Packet.structs packets)
  params : BasesAgree (DerivesFrom packets) (definesParam globals packets)

/-- Each packet holds the definitions of its description and of all of its bases, the nearest where
there are several. -/
structure Resolved (globals : Dict String Param) (packets merged : Dict Key Packet) : Prop where
  keys : ∀ a, a ∈ merged ↔ a ∈ packets
  enums : ResolvesToNearest (DerivesFrom packets) (defines Packet.enums packets)
    (defines Packet.enums merged)
  structs : ResolvesToNearest (DerivesFrom packets) (defines Packet.structs packets)
    (defines Packet.structs merged)
  params : ResolvesToNearest (DerivesFrom packets) (definesParam globals packets)
    (defines Packet.params merged)

/-- The same packets with the same definitions. -/
structure SameDefinitions (merged merged' : Dict Key Packet) : Prop where
  keys : ∀ a, a ∈ merged ↔ a ∈ merged'
  enums : defines Packet.enums merged = defines Packet.enums merged'
  structs : defines Packet.structs merged = defines Packet.structs merged'
  params : defines Packet.params merged = defines Packet.params merged'

/-- Merging ends, resolves all names to the nearest definitions, and has one result in whatever
order the packets are merged and dictionaries are listed. -/
def MergesToNearest (params : List Param) (packets : Dict Key Packet) : Prop :=
  ∃ result, Resolved (global_params params) packets result ∧
    ∀ order keys fuel, keys.Nodup → (∀ a, a ∈ keys ↔ a ∈ packets) → packets.keys.card ≤ fuel →
      ∃ merged, merge_packets order params fuel keys packets = .ok merged ∧
        SameDefinitions merged result

/-- All bases and all global params are described, and no packet redefines an id or a name of one
of its bases.  A param may be redefined by the global param of its id, if the packet or one of its
bases refers to that. -/
structure NeverRedefines (globals : Dict String Param) (packets : Dict Key Packet) : Prop where
  closed : Closed packets
  resolvable : Resolvable globals packets
  enums : ∀ a x, Unchanged (DerivesFrom packets) (defines Packet.enums packets) a x
  structs : ∀ a x, Unchanged (DerivesFrom packets) (defines Packet.structs packets) a x
  params : ∀ a x, Unchanged (DerivesFrom packets) (definesParam globals packets) a x ∨
    Referenced packets a x ∧ definesParam globals packets a x = globals.lookup x

/-- All packets have been merged. -/
structure MergedAll (globals : Dict String Param) (packets merged : Dict Key Packet) : Prop where
  keys : ∀ a, a ∈ merged ↔ a ∈ packets
  holds : ∀ a q, merged.lookup a = some q → Merged globals packets a q

/-- A key without a description has no bases. -/
theorem eq_of_notMem {a b : Key} (ha : a ∉ packets) (h : ReflTransGen (DerivesFrom packets) a b) :
    a = b := by
  rcases ReflTransGen.cases_head h with rfl | ⟨c, ⟨p, hp, -⟩, -⟩
  · rfl
  · exact absurd (Finmap.mem_of_lookup_eq_some hp) ha

/-- A key without a description has nothing to collect. -/
theorem collecting_of_notMem {δ : Type} {f : Packet → String → Option δ} {a : Key} {x : String}
    (ha : a ∉ packets) :
    Collecting (DerivesFrom packets) (fun b x => (packets.lookup b).bind fun p => f p x) a x
      none ∅ where
  collected := by simp
  missing := by
    intro _ b hab hb
    rw [← eq_of_notMem ha hab] at hb
    exact absurd (Finmap.mem_keys.mp (mem_of_isSome_bind hb)) ha

namespace MergedAll

variable {merged : Dict Key Packet}

/-- What a finished packet holds is what its key finds in the merged dictionary. -/
theorem cases_mem (h : MergedAll globals packets merged) (a : Key) :
    (∃ q, merged.lookup a = some q ∧ Merged globals packets a q) ∨
      merged.lookup a = none ∧ a ∉ packets := by
  cases hq : merged.lookup a with
  | some q => exact .inl ⟨q, rfl, h.holds a q hq⟩
  | none => exact .inr ⟨rfl, fun hmem => Finmap.lookup_eq_none.mp hq ((h.keys a).mpr hmem)⟩

theorem enums (h : MergedAll globals packets merged) (a : Key) (x : String) :
    Collecting (DerivesFrom packets) (defines Packet.enums packets) a x
      (defines Packet.enums merged a x) ∅ := by
  rcases h.cases_mem a with ⟨q, hq, hmerged⟩ | ⟨hq, ha⟩
  · simpa [defines, hq, hmerged.derives_eq] using hmerged.enums x
  · rw [defines, hq]
    exact collecting_of_notMem (f := fun p x => p.enums.lookup x) ha

theorem structs (h : MergedAll globals packets merged) (a : Key) (x : String) :
    Collecting (DerivesFrom packets) (defines Packet.structs packets) a x
      (defines Packet.structs merged a x) ∅ := by
  rcases h.cases_mem a with ⟨q, hq, hmerged⟩ | ⟨hq, ha⟩
  · simpa [defines, hq, hmerged.derives_eq] using hmerged.structs x
  · rw [defines, hq]
    exact collecting_of_notMem (f := fun p x => p.structs.lookup x) ha

theorem params (h : MergedAll globals packets merged) (a : Key) (x : String)
    (hx : ¬ Referenced packets a x) :
    Collecting (DerivesFrom packets) (definesParam globals packets) a x
      (defines Packet.params merged a x) ∅ := by
  rcases h.cases_mem a with ⟨q, hq, hmerged⟩ | ⟨hq, ha⟩
  · simpa [defines, hq, hmerged.derives_eq] using hmerged.params x hx
  · rw [defines, hq]
    exact collecting_of_notMem (f := fun p x => p.param globals x) ha

/-- A param that the packet or a base refers to is the global one. -/
theorem params_of_referenced (h : MergedAll globals packets merged) {a : Key} {x : String}
    (hx : Referenced packets a x) : defines Packet.params merged a x = globals.lookup x := by
  obtain ⟨b, hab, hb⟩ := hx
  rcases h.cases_mem a with ⟨q, hq, hmerged⟩ | ⟨-, ha⟩
  · have hmem : x ∈ q.param_refs := by
      by_contra hnot
      have hcollect := hmerged.refs x
      rw [if_neg hnot, hmerged.derives_eq] at hcollect
      rw [hcollect.done.2 rfl b hab] at hb
      cases hb
    rw [defines, hq]
    exact hmerged.refs_eq x hmem
  · rw [← eq_of_notMem ha hab] at hb
    exact absurd (Finmap.mem_keys.mp (mem_of_isSome_bind hb)) ha

/-- In every order the packets end up with the same definitions. -/
theorem sameDefinitions {merged' : Dict Key Packet} (hagree : Agreeing globals packets)
    (h : MergedAll globals packets merged) (h' : MergedAll globals packets merged') :
    SameDefinitions merged merged' where
  keys a := (h.keys a).trans (h'.keys a).symm
  enums := by
    ext1 a
    ext1 x
    exact (h.enums a x).unique hagree.enums (h'.enums a x)
  structs := by
    ext1 a
    ext1 x
    exact (h.structs a x).unique hagree.structs (h'.structs a x)
  params := by
    ext1 a
    ext1 x
    by_cases hx : Referenced packets a x
    · rw [h.params_of_referenced hx, h'.params_of_referenced hx]
    · exact (h.params a x hx).unique hagree.params (h'.params a x hx)

/-- **When merged packets hold the nearest definitions.** -/
theorem resolved_iff (h : MergedAll globals packets merged)
    (hacyclic : Acyclic (DerivesFrom packets)) (hagree : Agreeing globals packets)
    (hrefs : Resolvable globals packets) :
    Resolved globals packets merged ↔
      (∀ a x, Unchanged (DerivesFrom packets) (defines Packet.enums packets) a x) ∧
      (∀ a x, Unchanged (DerivesFrom packets) (defines Packet.structs packets) a x) ∧
      ∀ a x, Unchanged (DerivesFrom packets) (definesParam globals packets) a x ∨
        Referenced packets a x ∧ definesParam globals packets a x = globals.lookup x := by
  have hdefs : ∀ a x, Referenced packets a x →
      ∃ b, ReflTransGen (DerivesFrom packets) a b ∧
        definesParam globals packets b x = globals.lookup x := by
    rintro a x ⟨b, hab, hb⟩
    refine ⟨b, hab, ?_⟩
    cases hp : packets.lookup b with
    | none => simp [refersTo, hp] at hb
    | some p =>
      by_cases hx : x ∈ p.param_refs
      · simp [definesParam, hp, Packet.param, hx]
      · simp [refersTo, hp, hx] at hb
  have henums := resolvesToNearest_iff_unchanged hacyclic hagree.enums h.enums
  have hstructs := resolvesToNearest_iff_unchanged hacyclic hagree.structs h.structs
  have hparams : ResolvesToNearest (DerivesFrom packets) (definesParam globals packets)
      (defines Packet.params merged) ↔ ∀ a x, Unchanged (DerivesFrom packets)
        (definesParam globals packets) a x ∨ Referenced packets a x ∧
          definesParam globals packets a x = globals.lookup x :=
    resolvesToNearest_iff hacyclic hagree.params (fun _ _ _ hab hs => hs.of_base hab)
      (fun _ _ hs => h.params_of_referenced hs) hdefs
      (fun _ x hs => hs.elim fun b hb => hrefs b x hb.2) (fun a x hx => h.params a x hx)
  rw [← henums, ← hstructs, ← hparams]
  exact ⟨fun hr => ⟨hr.enums, hr.structs, hr.params⟩, fun hr => ⟨h.keys, hr.1, hr.2.1, hr.2.2⟩⟩

end MergedAll

/-- Dictionaries can be listed. -/
theorem nonempty_iterationOrder : Nonempty IterationOrder :=
  ⟨{ items := fun p => p.derives.toList
     items_nodup := fun p => p.derives.nodup_toList
     mem_items := fun _ _ => Finset.mem_toList
     values := fun p => p.param_refs.toList
     mem_values := fun _ _ => Finset.mem_toList }⟩

/-- If merging succeeds in some order, nothing is missing. -/
theorem closed_and_resolvable_of_merge_packets {order : IterationOrder} {params : List Param}
    {fuel : ℕ} {keys : List Key} {merged : Dict Key Packet} (hnodup : keys.Nodup)
    (hkeys : ∀ a, a ∈ keys ↔ a ∈ packets)
    (h : merge_packets order params fuel keys packets = .ok merged) :
    Closed packets ∧ Resolvable (global_params params) packets := by
  have hok := foldlM_merge_one_ok hnodup (fun _ _ => rfl) (fun _ => Iff.rfl) h
  refine ⟨?_, ?_⟩
  · rintro a b ⟨p, hp, hb⟩
    exact (hok a ((hkeys a).mpr (Finmap.mem_of_lookup_eq_some hp)) p hp).1 b hb
  · intro a x hx
    cases hp : packets.lookup a with
    | none => simp [refersTo, hp] at hx
    | some p =>
      have hmem : x ∈ p.param_refs := by
        by_contra hnot
        simp [refersTo, hp, hnot] at hx
      exact (hok a ((hkeys a).mpr (Finmap.mem_of_lookup_eq_some hp)) p hp).2 x hmem

/-- **Merging resolves names to the nearest definitions exactly if** no description redefines what
one of its bases defines. -/
theorem mergesToNearest_iff (params : List Param) (packets : Dict Key Packet)
    (h : Acyclic (DerivesFrom packets)) (hagree : Agreeing (global_params params) packets) :
    MergesToNearest params packets ↔ NeverRedefines (global_params params) packets := by
  have hkeys : ∀ a, a ∈ packets.keys.toList ↔ a ∈ packets := by
    intro a
    rw [Finset.mem_toList, Finmap.mem_keys]
  refine ⟨?_, ?_⟩
  · rintro ⟨result, hresolved, hruns⟩
    obtain ⟨order⟩ := nonempty_iterationOrder
    obtain ⟨merged, hmerged, hsame⟩ :=
      hruns order packets.keys.toList _ (Finset.nodup_toList _) hkeys le_rfl
    obtain ⟨hclosed, hrefs⟩ :=
      closed_and_resolvable_of_merge_packets (Finset.nodup_toList _) hkeys hmerged
    obtain ⟨merged', hmerged', hmem, hall⟩ :=
      merge_packets_spec order h hclosed hrefs le_rfl hkeys
    obtain rfl : merged = merged' := Except.ok.inj (hmerged.symm.trans hmerged')
    have hfinal : MergedAll (global_params params) packets merged := ⟨hmem, hall⟩
    have hresolved' : Resolved (global_params params) packets merged := by
      refine ⟨hmem, ?_, ?_, ?_⟩
      · rw [hsame.enums]
        exact hresolved.enums
      · rw [hsame.structs]
        exact hresolved.structs
      · rw [hsame.params]
        exact hresolved.params
    obtain ⟨henums, hstructs, hparams⟩ :=
      (hfinal.resolved_iff h hagree hrefs).mp hresolved'
    exact ⟨hclosed, hrefs, henums, hstructs, hparams⟩
  · intro hnever
    obtain ⟨order₀⟩ := nonempty_iterationOrder
    obtain ⟨result, -, hmem, hall⟩ :=
      merge_packets_spec order₀ h hnever.closed hnever.resolvable le_rfl hkeys
    have hresult : MergedAll (global_params params) packets result := ⟨hmem, hall⟩
    refine ⟨result, (hresult.resolved_iff h hagree hnever.resolvable).mpr
      ⟨hnever.enums, hnever.structs, hnever.params⟩, ?_⟩
    intro order keys fuel _ hlist hfuel
    obtain ⟨merged, hmerged, hmem', hall'⟩ :=
      merge_packets_spec order h hnever.closed hnever.resolvable hfuel hlist
    exact ⟨merged, hmerged, MergedAll.sameDefinitions hagree ⟨hmem', hall'⟩ hresult⟩

/-! ## A param that changes its type -/

/-- The flags of a request, with one of two types. -/
def favFlags (type : String) : Param :=
  { type := type, data_type := type, name := "Favflags", shortname := "favFlags",
    comment := "If least significant bit set, NoSync.", is_array := false, id := "4800",
    default := "- ", array_stride := "", array_end := "" }

/-- A version of the request, with the flags as its only param. -/
def favRequest (version type : String) (derives : Finset Key) : Packet :=
  { name := "NAV_FAV_REQ", version := version, comment := "", params :=
      Finmap.singleton "4800" (favFlags type), param_refs := ∅, enums := ∅, structs := ∅,
    derives := derives }

/-- The key of a version. -/
def favKey (version : String) : Key := ("NAV_FAV_REQ", version)

/-- Version 2 derives from version 1, and gives the flags their type again, or another one. -/
def favVersions (type : String) : Dict Key Packet :=
  (Finmap.singleton (favKey "1") (favRequest "1" "uint32" ∅)).insert (favKey "2")
    (favRequest "2" type {favKey "1"})

/-- It makes them a byte. -/
def favRequests : Dict Key Packet := favVersions "uint8"

section

variable {type : String} {a b : Key}

theorem lookup_favVersions (a : Key) : (favVersions type).lookup a =
    if a = favKey "2" then some (favRequest "2" type {favKey "1"})
    else if a = favKey "1" then some (favRequest "1" "uint32" ∅) else none := by
  rw [favVersions]
  split
  · rename_i h2
    rw [h2, Finmap.lookup_insert]
  rename_i h2
  rw [Finmap.lookup_insert_of_ne _ h2]
  split
  · rename_i h1
    rw [h1, Finmap.lookup_singleton_eq]
  · rename_i h1
    rw [Finmap.lookup_eq_none, Finmap.mem_singleton]
    exact h1

theorem derivesFrom_favVersions (h : DerivesFrom (favVersions type) a b) :
    a = favKey "2" ∧ b = favKey "1" := by
  obtain ⟨p, hp, hb⟩ := h
  rw [lookup_favVersions] at hp
  split at hp
  · rename_i ha
    rw [← Option.some.inj hp] at hb
    exact ⟨ha, Finset.mem_singleton.mp hb⟩
  · split at hp
    · rw [← Option.some.inj hp] at hb
      exact absurd hb (Finset.notMem_empty b)
    · cases hp

theorem transGen_favVersions (h : TransGen (DerivesFrom (favVersions type)) a b) :
    a = favKey "2" ∧ b = favKey "1" := by
  induction h with
  | single h => exact derivesFrom_favVersions h
  | tail _ h ih => exact ⟨ih.1, (derivesFrom_favVersions h).2⟩

theorem acyclic_favVersions : Acyclic (DerivesFrom (favVersions type)) := by
  apply Acyclic.of_rank fun a => if a = favKey "2" then 1 else 0
  intro a b hab
  obtain ⟨rfl, rfl⟩ := derivesFrom_favVersions hab
  decide

/-- There is only one base. -/
theorem agreeing_favVersions : Agreeing globals (favVersions type) := by
  have hone : ∀ {δ : Type} (defs : Key → String → Option δ),
      BasesAgree (DerivesFrom (favVersions type)) defs := by
    intro δ defs a b c x hab hac _ _ _ _
    rw [(transGen_favVersions hab).2, (transGen_favVersions hac).2]
  exact ⟨hone _, hone _, hone _⟩

theorem closed_favVersions : Closed (favVersions type) := by
  intro a b hab
  rw [(derivesFrom_favVersions hab).2, Finmap.mem_iff]
  exact ⟨favRequest "1" "uint32" ∅, by simp [lookup_favVersions, favKey]⟩

theorem refersTo_favVersions (a : Key) (x : String) : refersTo (favVersions type) a x = none := by
  rw [refersTo, lookup_favVersions]
  split_ifs <;> simp [favRequest]

end

/-- The flags of the second version are those of the first once it is merged. -/
theorem not_mergesToNearest_favRequests : Acyclic (DerivesFrom favRequests) ∧
    Agreeing (global_params []) favRequests ∧ ¬ MergesToNearest [] favRequests := by
  refine ⟨acyclic_favVersions, agreeing_favVersions, ?_⟩
  rintro ⟨result, hresolved, hruns⟩
  have hone : definesParam (global_params []) favRequests (favKey "1") "4800" =
      some (favFlags "uint32") := by
    simp [definesParam, favRequests, lookup_favVersions, favKey, favRequest, Packet.param]
  have htwo : definesParam (global_params []) favRequests (favKey "2") "4800" =
      some (favFlags "uint8") := by
    simp [definesParam, favRequests, lookup_favVersions, favRequest, Packet.param]
  have hlist : ∀ a, a ∈ favRequests.keys.toList ↔ a ∈ favRequests := by
    intro a
    rw [Finset.mem_toList, Finmap.mem_keys]
  obtain ⟨order⟩ := nonempty_iterationOrder
  obtain ⟨merged, hmerged, hsame⟩ :=
    hruns order _ _ (Finset.nodup_toList _) hlist le_rfl
  obtain ⟨merged', hmerged', hmem, hall⟩ := merge_packets_spec order acyclic_favVersions
    closed_favVersions (fun a x hx => by simp [refersTo_favVersions] at hx) le_rfl hlist
  obtain rfl : merged = merged' := Except.ok.inj (hmerged.symm.trans hmerged')
  have hfinal : MergedAll (global_params []) favRequests merged := ⟨hmem, hall⟩
  have hnot : ¬ Referenced favRequests (favKey "2") "4800" := by
    rintro ⟨b, -, hb⟩
    simp [favRequests, refersTo_favVersions] at hb
  have hheld : defines Packet.params merged (favKey "2") "4800" = some (favFlags "uint8") := by
    rw [hsame.params, ← htwo]
    exact hresolved.params.nearest _ _ _ (Nearest.self acyclic_favVersions (by simp [htwo]))
  obtain ⟨f, hf, hgot⟩ := (hfinal.params _ _ hnot).done.1 _ hheld
  -- the flags of version 1 are farther than those of version 2
  have hbase : DerivesFrom favRequests (favKey "2") (favKey "1") :=
    ⟨_, by rw [favRequests, lookup_favVersions, if_pos rfl], by simp [favRequest]⟩
  rcases reflTransGen_iff_eq_or_transGen.mp hf.reach with rfl | hlow
  · have hbelow := hf.below _ (.single hbase)
    rw [hone] at hbelow
    cases hbelow
  · rw [(transGen_favVersions hlow).2, hone] at hgot
    exact absurd hgot (by decide)

/-- A version that repeats what its base defines. -/
theorem mergesToNearest_favVersions : MergesToNearest [] (favVersions "uint32") := by
  have hsame : ∀ {δ : Type} (defs : Key → String → Option δ),
      (∀ x, defs (favKey "1") x = defs (favKey "2") x) →
      ∀ a x, Unchanged (DerivesFrom (favVersions "uint32")) defs a x := by
    intro δ defs heq a x b hab _ _
    obtain ⟨rfl, rfl⟩ := transGen_favVersions hab
    exact heq x
  refine (mergesToNearest_iff [] _ acyclic_favVersions agreeing_favVersions).mpr
    ⟨closed_favVersions, ?_, hsame _ ?_, hsame _ ?_, fun a x => .inl (hsame _ ?_ a x)⟩
  · intro a x hx
    simp [refersTo_favVersions] at hx
  all_goals
    intro x
    simp [defines, definesParam, lookup_favVersions, favKey, favRequest, Packet.param]

end CppCore.Generator.Request
