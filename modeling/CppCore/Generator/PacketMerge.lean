import CppCore.Lib.Inheritance
import Mathlib.Data.Finmap

/-!
# Packets that derive from packets

A packet of the protocol description may name packets it derives from.  Before it writes the packet
classes, the generator merges into each packet what its bases hold, in `merge_packet`: as long as
the packet has bases it takes their dictionaries into its own, then the bases they name; at the end
it looks up the global params the packet refers to.

The packets are merged one after another, in place, so a base may or may not have been merged when
it is its turn.  A dictionary lists its keys in an order that depends on its history; the orders are
a parameter.

`DerivesFrom` and `ParamRef` hold what their keys hold, and the dictionaries of them are the sets of
their keys.

## Main definitions

* `Packet`, `Dict` — descriptions; `IterationOrder` the orders dictionaries are listed in.
* `merge_packet`, `merge_packets` — the merging of one packet, and of all.
* `Partial` — what a packet holds at any time; `Merged` — what it holds after its turn.
* `merge_packets_spec` — merging ends, and every packet is merged.
-/

namespace CppCore.Generator.Request

open Lib Relation

/-! ## Descriptions -/

/-- A dictionary. -/
abbrev Dict (κ ν : Type) := Finmap fun _ : κ => ν

/-- `dict.update`: the entries of the other dictionary replace those with the same keys. -/
def Dict.update {κ ν : Type} [DecidableEq κ] (d other : Dict κ ν) : Dict κ ν := other ∪ d

@[simp] theorem Dict.lookup_update {κ ν : Type} [DecidableEq κ] (d other : Dict κ ν) (x : κ) :
    (Dict.update d other).lookup x = (other.lookup x).or (d.lookup x) := by
  by_cases hx : x ∈ other
  · obtain ⟨v, hv⟩ := Finmap.mem_iff.mp hx
    rw [Dict.update, Finmap.lookup_union_left hx, hv, Option.some_or]
  · rw [Dict.update, Finmap.lookup_union_right hx, Finmap.lookup_eq_none.mpr hx, Option.none_or]

/-- The fields of a `LabeledVariable`. -/
structure LabeledVariable where
  type : String
  data_type : String
  name : String
  shortname : String
  comment : String
  is_array : Bool
  deriving DecidableEq, Repr

/-- One request or reply parameter. -/
structure Param extends LabeledVariable where
  id : String
  default : String
  array_stride : String
  array_end : String
  deriving DecidableEq, Repr

/-- Constant numbers: names, values and comments. -/
structure Enum where
  containing_struct : String
  name : String
  comment : String
  values : List (String × String × String)
  deriving DecidableEq, Repr

/-- A simple data type in a struct. -/
structure Member extends LabeledVariable where
  size : String
  ref_type : String
  enum : String
  deriving DecidableEq, Repr

/-- A complex data type of params. -/
structure Struct where
  name : String
  members : List Member
  enums : List (String × Enum)
  deriving DecidableEq, Repr

/-- Packets are known by their name and version. -/
abbrev Key := String × String

/-- The description of a request or a reply. -/
structure Packet where
  name : String
  version : String
  comment : String
  params : Dict String Param
  /-- The ids of the global params. -/
  param_refs : Finset String
  enums : Dict String Enum
  structs : Dict String Struct
  /-- The packets it derives from. -/
  derives : Finset Key

/-! ## Merging -/

/-- How the generator fails: a dictionary has no such key, or a loop has not ended. -/
inductive MergeError
  | noPacket (key : Key)
  | noParam (id : String)
  | outOfFuel
  deriving DecidableEq, Repr

/-- The orders in which `packet.derives.items()` and `packet.param_refs.values()` are listed. -/
structure IterationOrder where
  items : Packet → List Key
  items_nodup : ∀ p, (items p).Nodup
  mem_items : ∀ p k, k ∈ items p ↔ k ∈ p.derives
  values : Packet → List String
  mem_values : ∀ p x, x ∈ values p ↔ x ∈ p.param_refs

/-- The body of the inner loop of `merge_packet`, with the base that was found. -/
def merge_base (packet other_packet : Packet) (key : Key) : Packet :=
  { packet with
    params := Dict.update packet.params other_packet.params
    enums := Dict.update packet.enums other_packet.enums
    structs := Dict.update packet.structs other_packet.structs
    derives := (packet.derives ∪ other_packet.derives).erase key
    param_refs := packet.param_refs ∪ other_packet.param_refs
    comment := other_packet.comment ++ "\n\n" ++ packet.comment }

/-- One turn of the inner loop.  The packet `self` that is being merged is one of
`other_packets`. -/
def merge_item (other_packets : Dict Key Packet) (self : Key) (packet : Packet) (key : Key) :
    Except MergeError Packet :=
  match (other_packets.insert self packet).lookup key with
  | none => .error (.noPacket key)
  | some other_packet => .ok (merge_base packet other_packet key)

/-- The loop of `merge_packet` that runs while the packet has bases; the inner loop goes through
the bases it had when that loop began. -/
def merge_derives (order : IterationOrder) (other_packets : Dict Key Packet) (self : Key) :
    ℕ → Packet → Except MergeError Packet
  | 0, packet => if packet.derives = ∅ then .ok packet else .error .outOfFuel
  | fuel + 1, packet =>
    if packet.derives = ∅ then .ok packet
    else do
      let packet ← (order.items packet).foldlM (merge_item other_packets self) packet
      merge_derives order other_packets self fuel packet

/-- The params of the document under their ids: `self.global_params[param.id] = param`. -/
def global_params (params : List Param) : Dict String Param :=
  params.foldl (fun d param => d.insert param.id param) ∅

/-- One turn of the last loop of `merge_packet`. -/
def merge_ref (globals : Dict String Param) (packet : Packet) (id : String) :
    Except MergeError Packet :=
  match globals.lookup id with
  | none => .error (.noParam id)
  | some real_param =>
    .ok { packet with params := packet.params.insert real_param.id real_param }

/-- `Generator.merge_packet`. -/
def merge_packet (order : IterationOrder) (globals : Dict String Param) (fuel : ℕ)
    (other_packets : Dict Key Packet) (self : Key) (packet : Packet) :
    Except MergeError Packet := do
  let packet ← merge_derives order other_packets self fuel packet
  (order.values packet).foldlM (merge_ref globals) packet

/-- One turn of a loop of `handle_doc` that merges the packets of a dictionary in place. -/
def merge_one (order : IterationOrder) (globals : Dict String Param) (fuel : ℕ)
    (packets : Dict Key Packet) (self : Key) : Except MergeError (Dict Key Packet) :=
  match packets.lookup self with
  | none => .error (.noPacket self)
  | some packet => do
    let packet ← merge_packet order globals fuel packets self packet
    .ok (packets.insert self packet)

/-- A loop of `handle_doc` that merges packets, the requests or the replies, which are listed in
the order of `keys`. -/
def merge_packets (order : IterationOrder) (params : List Param) (fuel : ℕ) (keys : List Key)
    (packets : Dict Key Packet) : Except MergeError (Dict Key Packet) :=
  keys.foldlM (merge_one order (global_params params) fuel) packets

/-! ## What packets define -/

variable {globals : Dict String Param} {packets : Dict Key Packet}

/-- The description of `a` names `b` as a base. -/
def DerivesFrom (packets : Dict Key Packet) (a b : Key) : Prop :=
  ∃ p, packets.lookup a = some p ∧ b ∈ p.derives

/-- The definition that the description of `a` has in one of its dictionaries. -/
def defines {δ : Type} (field : Packet → Dict String δ) (packets : Dict Key Packet) (a : Key)
    (x : String) : Option δ :=
  (packets.lookup a).bind fun p => (field p).lookup x

/-- The definition of a param: a reference to a global param stands for that param. -/
def Packet.param (globals : Dict String Param) (p : Packet) (x : String) : Option Param :=
  if x ∈ p.param_refs then globals.lookup x else p.params.lookup x

/-- The definition that the description of `a` has of a param. -/
def definesParam (globals : Dict String Param) (packets : Dict Key Packet) (a : Key)
    (x : String) : Option Param :=
  (packets.lookup a).bind fun p => p.param globals x

/-- The description of `a` refers to the global param. -/
def refersTo (packets : Dict Key Packet) (a : Key) (x : String) : Option Unit :=
  (packets.lookup a).bind fun p => if x ∈ p.param_refs then some () else none

/-- A packet or one of its bases refers to the global param. -/
def Referenced (packets : Dict Key Packet) (a : Key) (x : String) : Prop :=
  ∃ b, ReflTransGen (DerivesFrom packets) a b ∧ (refersTo packets b x).isSome

theorem mem_of_isSome_bind {δ : Type} {f : Packet → Option δ} {a : Key}
    (h : ((packets.lookup a).bind f).isSome) : a ∈ packets.keys := by
  rw [Finmap.mem_keys, ← Finmap.lookup_isSome]
  cases hp : packets.lookup a with
  | none => simp [hp] at h
  | some p => rfl

/-! ## Merging a packet -/

/-- What a packet of the dictionary holds at any time, before, during and after its turn: it has
collected definitions, and `derives` are the bases it still has to visit. -/
structure Partial (globals : Dict String Param) (packets : Dict Key Packet) (a : Key)
    (q : Packet) : Prop where
  /-- What it still has to visit are its bases. -/
  derives : ∀ k ∈ q.derives, TransGen (DerivesFrom packets) a k
  enums : ∀ x, Collecting (DerivesFrom packets) (defines Packet.enums packets) a x
    (q.enums.lookup x) q.derives
  structs : ∀ x, Collecting (DerivesFrom packets) (defines Packet.structs packets) a x
    (q.structs.lookup x) q.derives
  refs : ∀ x, Collecting (DerivesFrom packets) (refersTo packets) a x
    (if x ∈ q.param_refs then some () else none) q.derives
  /-- The params of ids that are not those of global params it refers to. -/
  params : ∀ x, ¬ Referenced packets a x → Collecting (DerivesFrom packets)
    (definesParam globals packets) a x (q.params.lookup x) q.derives

/-- A packet before its turn. -/
theorem Partial.start {a : Key} {p : Packet} (h : Acyclic (DerivesFrom packets))
    (hp : packets.lookup a = some p) : Partial globals packets a p := by
  have htodo : ∀ k, k ∈ p.derives ↔ DerivesFrom packets a k := by
    intro k
    simp [DerivesFrom, hp]
  have hstart : ∀ {δ : Type} (f : Packet → String → Option δ) (x : String),
      Collecting (DerivesFrom packets) (fun b x => (packets.lookup b).bind fun q => f q x) a x
        (f p x) p.derives := by
    intro δ f x
    have hown : ((packets.lookup a).bind fun q => f q x) = f p x := by rw [hp, Option.bind_some]
    rw [← hown]
    exact Collecting.start h (fun _ _ hx => mem_of_isSome_bind hx) htodo
  refine ⟨fun k hk => .single ((htodo k).mp hk), hstart fun q x => q.enums.lookup x,
    hstart fun q x => q.structs.lookup x,
    hstart fun q x => if x ∈ q.param_refs then some () else none, ?_⟩
  intro x hx
  have hown : x ∉ p.param_refs := by
    intro hmem
    exact hx ⟨a, ReflTransGen.refl, by simp [refersTo, hp, hmem]⟩
  have hparam : p.param globals x = p.params.lookup x := by
    rw [Packet.param, if_neg hown]
  rw [← hparam]
  exact hstart (fun q x => q.param globals x) x

/-- A packet refers to no global params but those of its bases. -/
theorem Partial.referenced {a : Key} {q : Packet} {x : String}
    (h : Partial globals packets a q) (hx : x ∈ q.param_refs) : Referenced packets a x := by
  obtain ⟨f, hf, -⟩ := (h.refs x).collected () (if_pos hx)
  exact ⟨f, hf.reach, hf.isSome⟩

theorem Referenced.of_base {a b : Key} {x : String}
    (hab : ReflTransGen (DerivesFrom packets) a b) (h : Referenced packets b x) :
    Referenced packets a x := by
  obtain ⟨c, hbc, hc⟩ := h
  exact ⟨c, hab.trans hbc, hc⟩

/-- **One base**, merged itself or not, keeps what a packet holds. -/
theorem Partial.merge_base {a k : Key} {p q : Packet} (h : Acyclic (DerivesFrom packets))
    (hp : Partial globals packets a p) (hq : Partial globals packets k q) (hk : k ∈ p.derives) :
    Partial globals packets a (merge_base p q k) := by
  have hak := hp.derives k hk
  have hkk : k ∉ q.derives := fun hmem => h k (hq.derives k hmem)
  refine ⟨?_, ?_, ?_, ?_, ?_⟩
  · intro l hl
    rcases Finset.mem_union.mp (Finset.mem_of_mem_erase hl) with hl | hl
    · exact hp.derives l hl
    · exact hak.trans (hq.derives l hl)
  · intro x
    rw [Request.merge_base, Dict.lookup_update]
    exact (hp.enums x).visit hak hkk (hq.enums x)
  · intro x
    rw [Request.merge_base, Dict.lookup_update]
    exact (hp.structs x).visit hak hkk (hq.structs x)
  · intro x
    have hor : (if x ∈ p.param_refs ∪ q.param_refs then some () else none) =
        (if x ∈ q.param_refs then some () else none).or
          (if x ∈ p.param_refs then some () else none) := by
      by_cases hx : x ∈ q.param_refs <;> simp [hx]
    rw [Request.merge_base, hor]
    exact (hp.refs x).visit hak hkk (hq.refs x)
  · intro x hx
    rw [Request.merge_base, Dict.lookup_update]
    have hxk : ¬ Referenced packets k x := fun hr => hx (hr.of_base hak.to_reflTransGen)
    exact (hp.params x hx).visit hak hkk (hq.params x hxk)

/-- Every packet that a description derives from is described. -/
def Closed (packets : Dict Key Packet) : Prop :=
  ∀ a b, DerivesFrom packets a b → b ∈ packets

theorem Closed.mem {a b : Key} (h : Closed packets) (hab : TransGen (DerivesFrom packets) a b) :
    b ∈ packets := by
  cases hab with
  | single hab => exact h a b hab
  | tail _ hcb => exact h _ b hcb

/-- The height of a packet above those that have no bases. -/
noncomputable def height (packets : Dict Key Packet) (a : Key) : ℕ :=
  rank (DerivesFrom packets) packets.keys a

theorem height_lt {a b : Key} (h : Acyclic (DerivesFrom packets)) (hclosed : Closed packets)
    (hab : TransGen (DerivesFrom packets) a b) : height packets b < height packets a :=
  rank_lt h (Finmap.mem_keys.mpr (hclosed.mem hab)) hab

/-- The dictionary that is being merged holds every packet, in some state. -/
structure Store (globals : Dict String Param) (packets store : Dict Key Packet) : Prop where
  keys : ∀ a, a ∈ store ↔ a ∈ packets
  holds : ∀ a q, store.lookup a = some q → Partial globals packets a q

/-- The inner loop goes through all bases it was to visit; those that are left are lower. -/
theorem foldlM_merge_item {store : Dict Key Packet} {self : Key} {n : ℕ}
    (h : Acyclic (DerivesFrom packets)) (hclosed : Closed packets)
    (hstore : Store globals packets store) {keys : List Key} {p : Packet} (hnodup : keys.Nodup)
    (hkeys : ∀ k ∈ keys, k ∈ p.derives ∧ height packets k ≤ n)
    (hleft : ∀ k ∈ p.derives, k ∈ keys ∨ height packets k < n)
    (hp : Partial globals packets self p) :
    ∃ q, keys.foldlM (merge_item store self) p = .ok q ∧ Partial globals packets self q ∧
      ∀ k ∈ q.derives, height packets k < n := by
  induction keys generalizing p with
  | nil => exact ⟨p, rfl, hp, fun k hk => (hleft k hk).resolve_left (by simp)⟩
  | cons k keys ih =>
    obtain ⟨hk, hkn⟩ := hkeys k (by simp)
    have hself := hp.derives k hk
    have hne : k ≠ self := fun heq => h self (heq ▸ hself)
    obtain ⟨q, hq⟩ := Finmap.mem_iff.mp ((hstore.keys k).mpr (hclosed.mem hself))
    have hitem : merge_item store self p k = .ok (merge_base p q k) := by
      simp [merge_item, Finmap.lookup_insert_of_ne _ hne, hq]
    have hqk := hstore.holds k q hq
    rw [List.foldlM_cons, hitem]
    apply ih (List.nodup_cons.mp hnodup).2 _ _ (hp.merge_base h hqk hk)
    · intro l hl
      have hlk : l ≠ k := fun heq => (List.nodup_cons.mp hnodup).1 (heq ▸ hl)
      obtain ⟨hlp, hln⟩ := hkeys l (by simp [hl])
      exact ⟨Finset.mem_erase.mpr ⟨hlk, Finset.mem_union_left _ hlp⟩, hln⟩
    · intro l hl
      obtain ⟨hlk, hl⟩ := Finset.mem_erase.mp hl
      rcases Finset.mem_union.mp hl with hl | hl
      · rcases hleft l hl with hmem | hlt
        · exact .inl ((List.mem_cons.mp hmem).resolve_left hlk)
        · exact .inr hlt
      · exact .inr ((height_lt h hclosed (hqk.derives l hl)).trans_le hkn)

/-- **The loop over the bases ends** after at most as many turns as they are high. -/
theorem merge_derives_spec (order : IterationOrder) {store : Dict Key Packet} {self : Key}
    (h : Acyclic (DerivesFrom packets)) (hclosed : Closed packets)
    (hstore : Store globals packets store) {fuel : ℕ} {p : Packet}
    (hp : Partial globals packets self p) (hfuel : ∀ k ∈ p.derives, height packets k < fuel) :
    ∃ q, merge_derives order store self fuel p = .ok q ∧ Partial globals packets self q ∧
      q.derives = ∅ := by
  induction fuel generalizing p with
  | zero =>
    have hempty : p.derives = ∅ := by
      apply Finset.eq_empty_of_forall_notMem
      intro k hk
      exact absurd (hfuel k hk) (Nat.not_lt_zero _)
    exact ⟨p, by simp [merge_derives, hempty], hp, hempty⟩
  | succ fuel ih =>
    by_cases hempty : p.derives = ∅
    · exact ⟨p, by simp [merge_derives, hempty], hp, hempty⟩
    · obtain ⟨q, hq, hpart, hlow⟩ := foldlM_merge_item h hclosed hstore (order.items_nodup p)
        (fun k hk => ⟨(order.mem_items p k).mp hk,
          Nat.le_of_lt_succ (hfuel k ((order.mem_items p k).mp hk))⟩)
        (fun k hk => .inl ((order.mem_items p k).mpr hk)) hp
      obtain ⟨r, hr, hdone⟩ := ih hpart hlow
      refine ⟨r, ?_, hdone⟩
      rw [merge_derives, if_neg hempty, hq]
      exact hr

/-- Global params are found under their ids. -/
theorem lookup_global_params {params : List Param} {x : String} {r : Param}
    (h : (global_params params).lookup x = some r) : r.id = x := by
  have hfold : ∀ (l : List Param) (d : Dict String Param),
      (∀ x r, d.lookup x = some r → r.id = x) →
      ∀ x r, (l.foldl (fun d param => d.insert param.id param) d).lookup x = some r → r.id = x := by
    intro l
    induction l with
    | nil => exact fun d hd => hd
    | cons param l ih =>
      intro d hd
      apply ih
      intro x r hr
      by_cases hx : x = param.id
      · subst hx
        rw [Finmap.lookup_insert] at hr
        rw [← Option.some.inj hr]
      · rw [Finmap.lookup_insert_of_ne _ hx] at hr
        exact hd x r hr
  exact hfold params ∅ (by simp) x r h

/-- The last loop of `merge_packet` gives each id of the list the global param. -/
theorem foldlM_merge_ref {ids : List String} {p : Packet}
    (hid : ∀ x r, globals.lookup x = some r → r.id = x)
    (hall : ∀ x ∈ ids, (globals.lookup x).isSome) :
    ∃ params, ids.foldlM (merge_ref globals) p = .ok { p with params := params } ∧
      ∀ x, params.lookup x = if x ∈ ids then globals.lookup x else p.params.lookup x := by
  induction ids generalizing p with
  | nil => exact ⟨p.params, rfl, by simp⟩
  | cons id ids ih =>
    obtain ⟨r, hr⟩ := Option.isSome_iff_exists.mp (hall id (by simp))
    obtain ⟨params, hfold, hlookup⟩ := ih (p := { p with params := p.params.insert r.id r })
      (fun x hx => hall x (by simp [hx]))
    refine ⟨params, ?_, ?_⟩
    · rw [List.foldlM_cons, merge_ref, hr]
      exact hfold
    · intro x
      rw [hlookup, hid id r hr]
      by_cases hx : x = id
      · subst hx
        simp [hr]
      · simp [hx, Finmap.lookup_insert_of_ne]

/-- What a packet holds after its turn: it has visited all of its bases, and has the global params
it refers to. -/
structure Merged (globals : Dict String Param) (packets : Dict Key Packet) (a : Key)
    (q : Packet) : Prop extends Partial globals packets a q where
  derives_eq : q.derives = ∅
  refs_eq : ∀ x, x ∈ q.param_refs → q.params.lookup x = globals.lookup x

/-- Every global param that a description refers to is there. -/
def Resolvable (globals : Dict String Param) (packets : Dict Key Packet) : Prop :=
  ∀ a x, (refersTo packets a x).isSome → (globals.lookup x).isSome

/-- **Merging one packet** ends, whatever of the others has been merged before. -/
theorem merge_packet_spec (order : IterationOrder) {store : Dict Key Packet} {self : Key}
    {fuel : ℕ} {p : Packet} (h : Acyclic (DerivesFrom packets)) (hclosed : Closed packets)
    (hrefs : Resolvable globals packets) (hid : ∀ x r, globals.lookup x = some r → r.id = x)
    (hstore : Store globals packets store) (hp : Partial globals packets self p)
    (hself : self ∈ packets) (hfuel : packets.keys.card ≤ fuel) :
    ∃ q, merge_packet order globals fuel store self p = .ok q ∧
      Merged globals packets self q := by
  have hheight : ∀ k ∈ p.derives, height packets k < fuel := by
    intro k hk
    have hlt := height_lt h hclosed (hp.derives k hk)
    have hcard := rank_lt_card h (Finmap.mem_keys.mpr hself)
    exact (hlt.trans hcard).trans_le hfuel
  obtain ⟨q, hq, hpart, hempty⟩ := merge_derives_spec order h hclosed hstore hp hheight
  have hvalues : ∀ x ∈ order.values q, (globals.lookup x).isSome := by
    intro x hx
    obtain ⟨b, -, hb⟩ := hpart.referenced ((order.mem_values q x).mp hx)
    exact hrefs b x hb
  obtain ⟨params, hfold, hlookup⟩ := foldlM_merge_ref (p := q) hid hvalues
  refine ⟨{ q with params := params }, ?_, ⟨⟨hpart.derives, hpart.enums, hpart.structs,
    hpart.refs, ?_⟩, hempty, ?_⟩⟩
  · rw [merge_packet, hq]
    exact hfold
  · intro x hx
    have hnot : x ∉ order.values q := fun hmem =>
      hx (hpart.referenced ((order.mem_values q x).mp hmem))
    rw [hlookup, if_neg hnot]
    exact hpart.params x hx
  · intro x hx
    rw [hlookup, if_pos ((order.mem_values q x).mpr hx)]

/-! ## Merging all packets -/

/-- After one turn the packet is merged, and the others are as they were. -/
theorem merge_one_spec (order : IterationOrder) {store : Dict Key Packet} {self : Key} {fuel : ℕ}
    (h : Acyclic (DerivesFrom packets)) (hclosed : Closed packets)
    (hrefs : Resolvable globals packets) (hid : ∀ x r, globals.lookup x = some r → r.id = x)
    (hstore : Store globals packets store) (hself : self ∈ packets)
    (hfuel : packets.keys.card ≤ fuel) :
    ∃ q, merge_one order globals fuel store self = .ok (store.insert self q) ∧
      Merged globals packets self q := by
  obtain ⟨p, hp⟩ := Finmap.mem_iff.mp ((hstore.keys self).mpr hself)
  obtain ⟨q, hq, hmerged⟩ := merge_packet_spec order h hclosed hrefs hid hstore
    (hstore.holds self p hp) hself hfuel
  refine ⟨q, ?_, hmerged⟩
  rw [merge_one, hp]
  simp only [hq]
  rfl

/-- The loop keeps the packets that have had their turn, and merges those of the list. -/
theorem foldlM_merge_one (order : IterationOrder) {fuel : ℕ} {done keys : List Key}
    {store : Dict Key Packet} (h : Acyclic (DerivesFrom packets)) (hclosed : Closed packets)
    (hrefs : Resolvable globals packets) (hid : ∀ x r, globals.lookup x = some r → r.id = x)
    (hfuel : packets.keys.card ≤ fuel) (hkeys : ∀ a ∈ keys, a ∈ packets)
    (hstore : Store globals packets store)
    (hdone : ∀ a ∈ done, ∀ q, store.lookup a = some q → Merged globals packets a q) :
    ∃ merged, keys.foldlM (merge_one order globals fuel) store = .ok merged ∧
      (∀ a, a ∈ merged ↔ a ∈ packets) ∧
      ∀ a, a ∈ done ∨ a ∈ keys → ∀ q, merged.lookup a = some q → Merged globals packets a q := by
  induction keys generalizing done store with
  | nil => exact ⟨store, rfl, hstore.keys, by simpa using hdone⟩
  | cons self keys ih =>
    obtain ⟨q, hq, hmerged⟩ := merge_one_spec order h hclosed hrefs hid hstore
      (hkeys self (by simp)) hfuel
    have hlookup : ∀ a r, (store.insert self q).lookup a = some r →
        a = self ∧ r = q ∨ a ≠ self ∧ store.lookup a = some r := by
      intro a r hr
      by_cases ha : a = self
      · subst ha
        rw [Finmap.lookup_insert] at hr
        exact .inl ⟨rfl, (Option.some.inj hr).symm⟩
      · rw [Finmap.lookup_insert_of_ne _ ha] at hr
        exact .inr ⟨ha, hr⟩
    have hstore' : Store globals packets (store.insert self q) := by
      refine ⟨?_, ?_⟩
      · intro a
        rw [Finmap.mem_insert, hstore.keys a, or_iff_right_iff_imp]
        rintro rfl
        exact hkeys a (by simp)
      · intro a r hr
        rcases hlookup a r hr with ⟨rfl, rfl⟩ | ⟨-, hr⟩
        · exact hmerged.toPartial
        · exact hstore.holds a r hr
    have hdone' : ∀ a ∈ self :: done, ∀ r, (store.insert self q).lookup a = some r →
        Merged globals packets a r := by
      intro a ha r hr
      rcases hlookup a r hr with ⟨rfl, rfl⟩ | ⟨hne, hr⟩
      · exact hmerged
      · exact hdone a ((List.mem_cons.mp ha).resolve_left hne) r hr
    obtain ⟨merged, hfold, hmem, hall⟩ :=
      ih (fun a ha => hkeys a (by simp [ha])) hstore' hdone'
    refine ⟨merged, ?_, hmem, ?_⟩
    · rw [List.foldlM_cons, hq]
      exact hfold
    · intro a ha
      apply hall a
      simpa [or_assoc, or_left_comm] using ha

/-- **Merging ends**, in every order of the packets and of the dictionaries, and every packet is
merged. -/
theorem merge_packets_spec (order : IterationOrder) {params : List Param} {fuel : ℕ}
    {keys : List Key} (h : Acyclic (DerivesFrom packets)) (hclosed : Closed packets)
    (hrefs : Resolvable (global_params params) packets) (hfuel : packets.keys.card ≤ fuel)
    (hkeys : ∀ a, a ∈ keys ↔ a ∈ packets) :
    ∃ merged, merge_packets order params fuel keys packets = .ok merged ∧
      (∀ a, a ∈ merged ↔ a ∈ packets) ∧
      ∀ a q, merged.lookup a = some q → Merged (global_params params) packets a q := by
  have hstore : Store (global_params params) packets packets :=
    ⟨fun _ => Iff.rfl, fun _ _ hq => Partial.start h hq⟩
  have hnone : ∀ a ∈ ([] : List Key), ∀ q, packets.lookup a = some q →
      Merged (global_params params) packets a q := by simp
  obtain ⟨merged, hfold, hmem, hall⟩ := foldlM_merge_one order h hclosed hrefs
    (fun _ _ hr => lookup_global_params hr) hfuel (fun a ha => (hkeys a).mp ha) hstore hnone
  refine ⟨merged, hfold, hmem, ?_⟩
  intro a q hq
  exact hall a (.inr ((hkeys a).mpr ((hmem a).mp (Finmap.mem_of_lookup_eq_some hq)))) q hq

end CppCore.Generator.Request
