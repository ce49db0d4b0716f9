import CppCore.Generator.PacketRoundTrip
import CppCore.Generator.PacketTotality

/-!
# Reading back arrays

The two kinds of params that hold a vector.  A `T[]` is one payload with its elements in a row,
which the constructor reads in a loop up to the end of the payload.  A strided param spreads its
elements over a series of ids, which the constructor goes through up to the first absent one.

The loop over a `T[]` of a simple type reads with a getter that does not advance; over structs it
ends, and brings back those none of whose members is hidden from their constructor.  The elements
of a strided param are read with the same loop, each from a payload of its own.

## Main definitions

* `construct_array_iff` — when a `T[]` is read back.
* `DataType.ReadBack` — the vectors a strided `T[]` brings back.
* `construct_strided_iff` — these are exactly the ones.
-/

namespace CppCore.Generator

open Lib Ngp

/-! ## One payload -/

/-- The elements are structs, which are read with a constructor that advances the offset. -/
def DataType.IsStruct : DataType → Prop
  | .simple _ => False
  | .struct _ => True

/-- A `T[]` without elements is read from an empty payload. -/
private theorem readWhile_empty (target : Target) (d : DataType) (id : UInt16) (fuel : ℕ) :
    readWhile (d.constructElement target) (NParam.mk id []).getLength ⟨id, []⟩ (fuel + 1) 0 =
      .ok [] := rfl

/-- The loop over a payload of elements brings them back, if it ends at all. -/
private theorem readWhile_iff (target : Target) {d : DataType} (id : UInt16) {vs : List d.Val}
    (hvalid : ∀ v ∈ vs, d.Valid target v) (hlen : (vs.flatMap d.encoding).length ≤ 65535) :
    (∃ N, ∀ fuel, N ≤ fuel → readWhile (d.constructElement target)
        (NParam.mk id (vs.flatMap d.encoding)).getLength ⟨id, vs.flatMap d.encoding⟩ fuel 0 =
          .ok (vs.map d.object)) ↔
      (d.IsStruct ∧ ∀ v ∈ vs, d.Visible v ∧ ¬d.Hollow v) ∨ vs = [] := by
  have hlength : (NParam.mk id (vs.flatMap d.encoding)).getLength =
      (vs.flatMap d.encoding).length := Nat.mod_eq_of_lt (Nat.lt_succ_of_le hlen)
  constructor
  · rintro ⟨N, hN⟩
    have hrun := hN N le_rfl
    cases d with
    | simple t =>
      have hnil : vs.flatMap t.encoding = [] :=
        DataType.coversAll_of_readWhile (d := .simple t) hlen hrun
      refine .inr (List.eq_nil_iff_forall_not_mem.mpr fun v hv => ?_)
      exact t.encoding_ne_nil v (List.flatMap_eq_nil_iff.mp hnil v hv)
    | struct ms =>
      rw [hlength] at hrun
      have hthrough := ((readWhile_eq_ok Members.constructElement_eq_ok).mp hrun).1
      have hall := (Members.through_object_iff hvalid hlen).mp hthrough
      exact .inl ⟨trivial, fun v hv => ⟨(hall v hv).1, mt (ms.encoding_eq_nil v).mpr (hall v hv).2⟩⟩
  · rintro (⟨hstruct, hall⟩ | rfl)
    · cases d with
      | simple t => exact hstruct.elim
      | struct ms =>
        refine ⟨vs.length + 1, fun fuel hfuel => ?_⟩
        have hthrough := (Members.through_object_iff hvalid hlen).mpr fun v hv =>
          ⟨(hall v hv).1, mt (ms.encoding_eq_nil v).mp (hall v hv).2⟩
        rw [hlength]
        exact (readWhile_eq_ok Members.constructElement_eq_ok).mpr
          ⟨hthrough, (List.length_map _).trans_lt hfuel⟩
    · refine ⟨1, fun fuel hfuel => ?_⟩
      obtain ⟨fuel, rfl⟩ := Nat.exists_eq_add_of_le' hfuel
      exact readWhile_empty target d id fuel

/-- The assignment of a `T[]` whose elements stand in the block is this loop. -/
private theorem construct_array_eq_ok {target : Target} {d : DataType} {vs : List d.Val}
    {block : NParamBlock} {id offset : UInt16}
    (hget : block.getParam offset = some ⟨offset, vs.flatMap d.encoding⟩) {fuel index j : ℕ} :
    (ParamType.array d).construct target fuel block id offset index =
        .ok (some (vs.map d.object), j) ↔
      readWhile (d.constructElement target) (NParam.mk offset (vs.flatMap d.encoding)).getLength
        ⟨offset, vs.flatMap d.encoding⟩ fuel 0 = .ok (vs.map d.object) ∧ j = index := by
  simp only [ParamType.construct, hget, deref, Exec.ok_bind, Exec.bind_eq_ok, Except.ok.injEq,
    Prod.mk.injEq, Option.some.injEq]
  constructor
  · rintro ⟨x, hrun, rfl, rfl⟩
    exact ⟨hrun, rfl⟩
  · rintro ⟨hrun, rfl⟩
    exact ⟨_, hrun, rfl, rfl⟩

/-- **When a `T[]` is read back.**  With elements that take room, the loop over the payload that
`serialize` produced ends with the vector exactly if there are no elements, or they are structs
none of whose members is hidden. -/
theorem construct_array_iff (target : Target) {d : DataType} (hroom : ∀ v, d.encoding v ≠ [])
    {vs : List d.Val} (hvalid : (ParamType.array d).Valid target vs)
    (hlen : ((ParamType.array d).encoding vs).length ≤ 65535) {block : NParamBlock} {id : UInt16}
    (hget : block.getParam id = some ((ParamType.array d).serialize vs (NParam.ofID id)))
    (index : ℕ) :
    (∃ N, ∀ fuel, N ≤ fuel → (ParamType.array d).construct target fuel block id id index =
        .ok (some ((ParamType.array d).object vs), index)) ↔
      (d.IsStruct ∧ ∀ v ∈ vs, d.Visible v) ∨ vs = [] := by
  rw [ParamType.serialize_ofID] at hget
  have hrun : ∀ fuel, (ParamType.array d).construct target fuel block id id index =
        .ok (some ((ParamType.array d).object vs), index) ↔ _ :=
    fun fuel => construct_array_eq_ok hget
  have hhollow : ∀ v, ¬d.Hollow v := fun v h => hroom v ((d.encoding_eq_nil v).mpr h)
  simp only [hrun, and_true, readWhile_iff target id (d := d) hvalid hlen, hhollow,
    not_false_eq_true]

/-- Two structs in a row, with another param in the block. -/
theorem construct_array_two_structs :
    ∃ N, ∀ fuel, N ≤ fuel →
      (ParamType.array (.struct pixelDimensions)).construct ⟨.little, fun _ => 1000⟩ fuel
        (NParamBlock.empty.addRecords [(5700, [0, 1, 0, 2, 0, 3, 0, 4]), (9, [1])]) 5700 5700 6 =
        .ok (some [(some (1 : UInt16), some (2 : UInt16), ()),
          (some (3 : UInt16), some (4 : UInt16), ())], 6) := by
  let vs : List (DataType.struct pixelDimensions).Val :=
    [((1 : UInt16), (2 : UInt16), ()), ((3 : UInt16), (4 : UInt16), ())]
  have hlen : (vs.flatMap pixelDimensions.encoding).length ≤ 65535 := by decide
  refine (construct_array_iff ⟨.little, fun _ => 1000⟩ (d := .struct pixelDimensions) ?_ ?_
    hlen (by decide) 6).mpr (.inl ⟨trivial, ?_⟩)
  · intro v h
    exact absurd ((DataType.encoding_eq_nil _ v).mp h) fun h => h.1
  · exact List.forall_mem_cons.mpr ⟨⟨trivial, trivial, trivial⟩,
      List.forall_mem_cons.mpr ⟨⟨trivial, trivial, trivial⟩, List.forall_mem_nil _⟩⟩
  · exact List.forall_mem_cons.mpr ⟨⟨by decide, trivial, by decide, trivial, trivial⟩,
      List.forall_mem_cons.mpr ⟨⟨by decide, trivial, by decide, trivial, trivial⟩,
        List.forall_mem_nil _⟩⟩

/-- The category ids of a `NAV_CATEGORIES_REPLY`, one of them, are never read to the end. -/
theorem construct_array_categories :
    ¬∃ fuel v, (ParamType.array (.simple (.int .uint16))).construct ⟨.little, fun _ => 1000⟩ fuel
      (serialize [.single 3502 (.array (.simple (.int .uint16))) [(7 : UInt16)]] NParamBlock.empty)
      3502 3502 0 = .ok v := by
  rintro ⟨fuel, v, h⟩
  obtain ⟨p, hp, h⟩ := Exec.bind_eq_ok.mp h
  obtain ⟨vs, hvs, -⟩ := Exec.bind_eq_ok.mp h
  obtain rfl : p = ⟨3502, [0, 7]⟩ := (Except.ok.inj hp).symm
  exact absurd (DataType.coversAll_of_readWhile (by decide) hvs) (by simp [DataType.CoversAll])

/-! ## A series of ids -/

/-- The param behind a turn of the serialize loop, found in the params of the turns from the
`k`-th on. -/
private theorem find_strided (id : UInt16) (d : DataType) (s : Stride) (v : List (List d.Val))
    (k n : ℕ)
    (hid : ∀ i, i < v.length ∨ i = n → id.toNat + (k + i) * s.array_stride < 2 ^ 16) :
    ((v.zipIdx k).map fun (x, i) =>
        (⟨UInt16.ofNat (id.toNat + i * s.array_stride), (ParamType.array d).encoding x⟩ :
          NParam)).find? (fun p => p.key = id.toNat + (k + n) * s.array_stride) =
      (v[n]?).map fun x =>
        ⟨UInt16.ofNat (id.toNat + (k + n) * s.array_stride), (ParamType.array d).encoding x⟩ := by
  have hpos := s.array_stride_pos
  induction v generalizing k n with
  | nil => rfl
  | cons x v ih =>
    have hkey : (UInt16.ofNat (id.toNat + k * s.array_stride)).toNat =
        id.toNat + k * s.array_stride := by
      rw [UInt16.toNat_ofNat']
      exact Nat.mod_eq_of_lt (by simpa using hid 0 (.inl (by simp)))
    rw [List.zipIdx_cons, List.map_cons]
    cases n with
    | zero =>
      rw [List.find?_cons_of_pos (by simpa [NParam.key] using hkey)]
      rfl
    | succ n =>
      have hne : ¬id.toNat + k * s.array_stride = id.toNat + (k + (n + 1)) * s.array_stride := by
        rw [Nat.add_mul k (n + 1), Nat.add_mul n 1]
        omega
      have hshift : k + (n + 1) = k + 1 + n := by omega
      rw [← hkey] at hne
      rw [List.find?_cons_of_neg (by rwa [decide_eq_true_iff]), hshift]
      refine ih (k + 1) n fun i hi => ?_
      have := hid (i + 1) (by simpa using hi)
      rwa [show k + 1 + i = k + (i + 1) by omega]

variable {target : Target} {pre post : List Member} {id : UInt16} {d : DataType} {s : Stride}
  {v : List (List d.Val)}

/-- The ids of a series, one after the other. -/
private theorem Stride.getElem_values (s : Stride) (id : UInt16) {n : ℕ}
    (hn : n < (s.values id).length) : (s.values id)[n] = id.toNat + n * s.array_stride := by
  simp [Stride.values, List.getElem_range', Nat.mul_comm]

/-- **What is found under the ids of a series** that no other param uses: the elements, one after
the other, and nothing behind the last of them. -/
theorem getParam_series (hother : ∀ m ∈ pre ++ post, ∀ p ∈ m.params, p.key ∉ s.values id)
    (hids : ∀ i ∈ s.values id, i < 2 ^ 16) (hlen : v.length ≤ (s.values id).length) {n : ℕ}
    (hn : n < (s.values id).length) :
    (serialize (pre ++ .strided id d s v :: post) NParamBlock.empty).getParam
        (UInt16.ofNat (id.toNat + n * s.array_stride)) =
      (v[n]?).map fun x =>
        ⟨UInt16.ofNat (id.toNat + n * s.array_stride), (ParamType.array d).encoding x⟩ := by
  have hmem : ∀ i, i < (s.values id).length → id.toNat + i * s.array_stride ∈ s.values id := by
    intro i hi
    rw [← s.getElem_values id hi]
    exact List.getElem_mem hi
  have hkey : (UInt16.ofNat (id.toNat + n * s.array_stride)).toNat =
      id.toNat + n * s.array_stride := by
    rw [UInt16.toNat_ofNat']
    exact Nat.mod_eq_of_lt (hids _ (hmem n hn))
  have hnone : ∀ l : List Member, (∀ m ∈ l, m ∈ pre ++ post) →
      (l.flatMap Member.params).find?
        (fun p => p.key = id.toNat + n * s.array_stride) = none := by
    intro l hl
    refine List.find?_eq_none.mpr fun p hp => ?_
    obtain ⟨m, hm, hp⟩ := List.mem_flatMap.mp hp
    have := hother m (hl m hm) p hp
    simpa using fun h : p.key = _ => this (h ▸ hmem n hn)
  have hseries := find_strided id d s v 0 n fun i hi => by
    rw [Nat.zero_add]
    exact hids _ (hmem i (by omega))
  rw [Nat.zero_add] at hseries
  rw [serialize_eq, NParamBlock.getParam, OrderedMultiset.find_insertAll, hkey,
    List.flatMap_append, List.flatMap_cons, List.find?_append,
    hnone pre fun m hm => List.mem_append_left _ hm, List.find?_append,
    hnone post fun m hm => List.mem_append_right _ hm, Member.params, hseries]
  simp [OrderedMultiset.find, NParamBlock.empty]

/-! ## The loop over the ids -/

section

variable {fuel : ℕ} {block : NParamBlock}

/-- The loop ends with the elements exactly if its turns bring them back: it stops at the first
absent id, or where the series ends. -/
private theorem constructStrided_iff {ks : List ℕ} {v : List (List d.Val)}
    (hlen : v.length ≤ ks.length)
    (hget : ∀ n (hn : n < ks.length),
      (block.getParam (UInt16.ofNat (ks.get ⟨n, hn⟩))).isSome = true ↔ n < v.length) {i : ℕ} :
    (ParamType.array d).constructStrided target fuel block id ks i =
        .ok (v.map fun x => some ((ParamType.array d).object x), i) ↔
      ∀ q ∈ ks.zip v, (ParamType.array d).construct target fuel block id (UInt16.ofNat q.1) i =
        .ok (some ((ParamType.array d).object q.2), i) := by
  induction ks generalizing v with
  | nil =>
    obtain rfl := List.length_eq_zero_iff.mp (Nat.le_zero.mp hlen)
    simp [ParamType.constructStrided]
  | cons k ks ih =>
    have hfirst : (block.getParam (UInt16.ofNat k)).isSome = true ↔ 0 < v.length :=
      hget 0 (by simp)
    rw [ParamType.constructStrided]
    cases v with
    | nil =>
      have hnone : block.getParam (UInt16.ofNat k) = none := by simpa using hfirst
      simp [hnone]
    | cons x v =>
      obtain ⟨p, hp⟩ := Option.isSome_iff_exists.mp (hfirst.mpr (by simp))
      have hrest := ih (v := v) (by simpa using hlen) fun n hn => by
        have := hget (n + 1) (by simpa using hn)
        simpa using this
      have hstay : ∀ y m, (ParamType.array d).construct target fuel block id (UInt16.ofNat k) i =
          .ok (y, m) → m = i := by
        intro y m h
        obtain ⟨_, _, h⟩ := Exec.bind_eq_ok.mp h
        obtain ⟨_, _, h⟩ := Exec.bind_eq_ok.mp h
        exact (Prod.mk.inj (Except.ok.inj h)).2.symm
      simp only [hp, List.zip_cons_cons, Exec.bind_eq_ok, Prod.exists, Except.ok.injEq,
        Prod.mk.injEq, List.map_cons, List.cons.injEq, List.forall_mem_cons, ← hrest]
      constructor
      · rintro ⟨y, m, hx, vs, j, hvs, ⟨rfl, rfl⟩, rfl⟩
        obtain rfl := hstay _ m hx
        exact ⟨hx, hvs⟩
      · rintro ⟨hx, hvs⟩
        exact ⟨_, i, hx, _, i, hvs, ⟨rfl, rfl⟩, rfl⟩

/-- Finitely many turns which all end for enough fuel end together. -/
private theorem forall_mem_of_fuel {α : Type} {P : α → ℕ → Prop} {l : List α} :
    (∃ N, ∀ fuel, N ≤ fuel → ∀ a ∈ l, P a fuel) ↔ ∀ a ∈ l, ∃ N, ∀ fuel, N ≤ fuel → P a fuel := by
  constructor
  · rintro ⟨N, hN⟩ a ha
    exact ⟨N, fun fuel hfuel => hN fuel hfuel a ha⟩
  · intro h
    induction l with
    | nil => exact ⟨0, by simp⟩
    | cons a l ih =>
      obtain ⟨hfirst, hrest⟩ := List.forall_mem_cons.mp h
      obtain ⟨N₁, hN₁⟩ := hfirst
      obtain ⟨N₂, hN₂⟩ := ih hrest
      refine ⟨max N₁ N₂, fun fuel hfuel => List.forall_mem_cons.mpr ⟨?_, ?_⟩⟩
      · exact hN₁ fuel ((le_max_left _ _).trans hfuel)
      · exact hN₂ fuel ((le_max_right _ _).trans hfuel)

end

/-- What holds of the values of a series holds of the elements in it. -/
private theorem forall_mem_zip_iff {α : Type} {P : α → Prop} {ks : List ℕ} {l : List α}
    (hlen : l.length ≤ ks.length) : (∀ q ∈ ks.zip l, P q.2) ↔ ∀ x ∈ l, P x := by
  have hsnd : (ks.zip l).map Prod.snd = l := List.map_snd_zip hlen
  constructor
  · intro h x hx
    rw [← hsnd] at hx
    obtain ⟨q, hq, rfl⟩ := List.mem_map.mp hx
    exact h q hq
  · intro h q hq
    exact h q.2 (hsnd ▸ List.mem_map_of_mem hq)

/-- The vectors a strided `T[]` brings back: every element is empty, or a row of structs that take
room and have no hidden member. -/
def DataType.ReadBack (d : DataType) (v : List (List d.Val)) : Prop :=
  ∀ x ∈ v, (d.IsStruct ∧ ∀ y ∈ x, d.Visible y ∧ ¬d.Hollow y) ∨ x = []

/-- **When a strided `T[]` is read back**, from a block in which no other param uses an id of its
series: exactly the vectors of `ReadBack` are, whatever the length and the stride.  The offset for
struct constructors is left alone. -/
theorem construct_strided_iff (target : Target) {pre post : List Member} {id : UInt16}
    {d : DataType} {s : Stride} {v : List (List d.Val)}
    (hother : ∀ m ∈ pre ++ post, ∀ p ∈ m.params, p.key ∉ s.values id)
    (hids : ∀ i ∈ s.values id, i < 2 ^ 16) (hlen : v.length ≤ (s.values id).length)
    (hvalid : (Member.strided id d s v).Valid target) (index : ℕ) :
    (∃ N, ∀ fuel, N ≤ fuel → (Member.strided id d s v).param.construct target fuel
        (serialize (pre ++ .strided id d s v :: post) NParamBlock.empty) index =
          .ok ((Member.strided id d s v).assigned, index)) ↔
      d.ReadBack v := by
  have hseries := fun n hn => getParam_series hother hids hlen (n := n) hn
  generalize serialize (pre ++ .strided id d s v :: post) NParamBlock.empty = block at hseries ⊢
  have hfound : ∀ q ∈ (s.values id).zip v, block.getParam (UInt16.ofNat q.1) =
      some ⟨UInt16.ofNat q.1, q.2.flatMap d.encoding⟩ := by
    intro q hq
    obtain ⟨n, hn, rfl⟩ := List.getElem_of_mem hq
    rw [List.length_zip] at hn
    rw [List.getElem_zip, s.getElem_values id (by omega), hseries n (by omega),
      List.getElem?_eq_getElem (by omega)]
    rfl
  have hget : ∀ n (hn : n < (s.values id).length),
      (block.getParam (UInt16.ofNat ((s.values id).get ⟨n, hn⟩))).isSome = true ↔ n < v.length := by
    intro n hn
    rw [List.get_eq_getElem, s.getElem_values id hn, hseries n hn, Option.isSome_map]
    simp
  have hloop : ∀ fuel, (Member.strided id d s v).param.construct target fuel block index =
        .ok ((Member.strided id d s v).assigned, index) ↔
      ∀ q ∈ (s.values id).zip v, readWhile (d.constructElement target)
        (NParam.mk (UInt16.ofNat q.1) (q.2.flatMap d.encoding)).getLength
        ⟨UInt16.ofNat q.1, q.2.flatMap d.encoding⟩ fuel 0 = .ok (q.2.map d.object) := by
    intro fuel
    have hturns := @constructStrided_iff target id d fuel block _ _ hlen hget index
    simp only [Member.param, Member.assigned, Param.construct, Exec.bind_eq_ok, Prod.exists,
      Except.ok.injEq, Prod.mk.injEq, Assignment.strided.injEq, heq_eq_eq, true_and]
    have heach : (∀ q ∈ (s.values id).zip v, (ParamType.array d).construct target fuel block id
        (UInt16.ofNat q.1) index = .ok (some ((ParamType.array d).object q.2), index)) ↔ _ :=
      forall₂_congr fun q hq => (construct_array_eq_ok (hfound q hq)).trans (and_iff_left rfl)
    rw [← heach, ← hturns]
    constructor
    · rintro ⟨w, j, h, rfl, rfl⟩
      exact h
    · intro h
      exact ⟨_, _, h, rfl, rfl⟩
  have hpayload : ∀ q ∈ (s.values id).zip v, (∀ y ∈ q.2, d.Valid target y) ∧
      (q.2.flatMap d.encoding).length ≤ 65535 :=
    (forall_mem_zip_iff (P := fun x : List d.Val => (∀ y ∈ x, d.Valid target y) ∧
      (x.flatMap d.encoding).length ≤ 65535) hlen).mpr fun x hx => hvalid x hx
  simp only [hloop, forall_mem_of_fuel]
  rw [DataType.ReadBack, ← forall_mem_zip_iff
    (P := fun x : List d.Val => (d.IsStruct ∧ ∀ y ∈ x, d.Visible y ∧ ¬d.Hollow y) ∨ x = []) hlen]
  exact forall₂_congr fun q hq =>
    readWhile_iff target _ (hpayload q hq).1 (hpayload q hq).2

/-- Two headings with a width and a height each, between two other params. -/
theorem construct_strided_dimensions :
    let heading : List (DataType.Val (.struct pixelDimensions)) :=
      [((240 : UInt16), (320 : UInt16), ())]
    let m : Member := .strided 5700 (.struct pixelDimensions) ⟨2, 5750, by decide, by decide⟩
      [heading, heading]
    ∃ N, ∀ fuel, N ≤ fuel → m.param.construct ⟨.little, fun _ => 1000⟩ fuel
      (serialize ([.single 7 .bool false] ++ m :: [.single 5701 .bool true]) NParamBlock.empty) 12 =
        .ok (m.assigned, 12) := by
  intro heading m
  refine (construct_strided_iff ⟨.little, fun _ => 1000⟩ (by decide) (by decide) (by decide) ?_
    12).mpr ?_
  · refine List.forall_mem_cons.mpr ⟨⟨?_, by decide⟩, List.forall_mem_cons.mpr
      ⟨⟨?_, by decide⟩, List.forall_mem_nil _⟩⟩ <;>
    exact List.forall_mem_cons.mpr ⟨⟨trivial, trivial, trivial⟩, List.forall_mem_nil _⟩
  · refine List.forall_mem_cons.mpr ⟨.inl ⟨trivial, ?_⟩, List.forall_mem_cons.mpr
      ⟨.inl ⟨trivial, ?_⟩, List.forall_mem_nil _⟩⟩ <;>
    exact List.forall_mem_cons.mpr ⟨⟨⟨by decide, trivial, by decide, trivial, trivial⟩,
      fun h => h.1⟩, List.forall_mem_nil _⟩

/-- A strided `T[]` of one `IndexAndCount`, the indices from `1` on and a count of five: the
constructor moves the offset to `1` and reads the count there, and the loop goes on with a second
one behind it, of which half a word is left. -/
theorem construct_strided_indexAndCount :
    let m : Member := .strided 5700 (.struct indexAndCount) ⟨2, 5750, by decide, by decide⟩
      [[((1 : UInt16), (5 : UInt16), ())]]
    m.Valid ⟨.little, fun _ => 1000⟩ ∧ ¬∃ fuel a, m.param.construct ⟨.little, fun _ => 1000⟩ fuel
      (serialize [m] NParamBlock.empty) 0 = .ok a := by
  intro m
  have hvalid : m.Valid ⟨.little, fun _ => 1000⟩ :=
    List.forall_mem_cons.mpr ⟨⟨List.forall_mem_cons.mpr ⟨⟨trivial, trivial, trivial⟩,
      List.forall_mem_nil _⟩, by decide⟩, List.forall_mem_nil _⟩
  refine ⟨hvalid, ?_⟩
  rintro ⟨fuel, a, h⟩
  rcases fuel with _ | _ | fuel <;> cases h

end CppCore.Generator
