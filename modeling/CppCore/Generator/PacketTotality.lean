import CppCore.Generator.Packet
import CppCore.Generator.StructReading

/-!
# Which blocks a generated packet can be built from

The buffer constructor checks that a simple param is present, and nothing else: not that a struct
param or a `T[]` is, and not that a payload is long enough for what is read from it.  Over a
non-empty `T[]` of a simple type it never stops, since the getter does not advance `arrIndex`.
This module states which blocks it gets through, for every description.

## Main definitions

* `SimpleType.Readable` — the payloads a getter stays inside of.
* `DataType.CoversAll` — the payloads the loop over a `T[]` gets through.
* `Covered` — the blocks all assignments get through.
* `construct_total_iff` — the assignments end without a fault exactly on these.
-/

namespace CppCore.Generator

open Lib Ngp

/-! ## Readable payloads -/

/-- The number of bytes of a type. -/
def IntType.width : IntType → ℕ
  | uint8 => 1
  | byte => 1
  | uint16 => 2
  | uint32 => 4
  | int32 => 4

/-- The payload is long enough, or has a terminator. -/
def SimpleType.Readable : SimpleType → List UInt8 → Prop
  | int t, l => t.width ≤ l.length
  | enum t, l => t.width ≤ l.length
  | string, l => 0 ∈ l

/-- A payload starts with the encoding of some integer exactly when it is long enough. -/
theorem IntType.exists_encoding_prefix {t : IntType} {l : List UInt8} :
    (∃ x, t.encoding x <+: l) ↔ t.width ≤ l.length := by
  constructor
  · rintro ⟨x, h⟩
    have := h.length_le
    cases t <;> exact this
  · intro h
    have htake : l.take t.width <+: l := List.take_prefix _ _
    have hlen : (l.take t.width).length = t.width := List.length_take_of_le h
    generalize l.take t.width = bs at htake hlen
    cases t with
    | uint8 | byte =>
      obtain ⟨a, rfl⟩ := List.length_eq_one_iff.mp hlen
      exact ⟨a, htake⟩
    | uint16 =>
      obtain ⟨a, b, rfl⟩ := List.length_eq_two.mp hlen
      exact ⟨ofBE16 a b, by simpa [encoding] using htake⟩
    | uint32 =>
      obtain ⟨a, b, c, d, rfl⟩ := List.length_eq_four.mp hlen
      exact ⟨ofBE32 a b c d, by simpa [encoding] using htake⟩
    | int32 =>
      obtain ⟨a, b, c, d, rfl⟩ := List.length_eq_four.mp hlen
      exact ⟨(ofBE32 a b c d).toInt32, by simpa [encoding] using htake⟩

/-- **A getter stays inside of the payload** exactly when that is readable. -/
theorem SimpleType.exists_get_eq_ok {host : Endian} {t : SimpleType} {p : NParam}
    (hp : p.m_buff.length ≤ 65535) : (∃ v, t.get host p 0 = .ok v) ↔ t.Readable p.m_buff := by
  simp only [SimpleType.get_eq_ok]
  cases t with
  | int t =>
    rw [Readable, ← IntType.exists_encoding_prefix]
    constructor
    · rintro ⟨_, x, -, -, h⟩
      exact ⟨x, h⟩
    · rintro ⟨x, h⟩
      exact ⟨_, x, trivial, rfl, h⟩
  | enum t =>
    rw [Readable, ← IntType.exists_encoding_prefix]
    constructor
    · rintro ⟨_, e, -, -, h⟩
      exact ⟨_, h⟩
    · rintro ⟨x, h⟩
      refine ⟨_, t.toInt x, congrArg t.toInt (t.ofInt_toInt x), rfl, ?_⟩
      rwa [encoding, t.ofInt_toInt]
  | string =>
    constructor
    · rintro ⟨_, s, -, -, h⟩
      exact h.subset (by simp [encoding, CString.bytes])
    · intro h
      obtain ⟨s, hs⟩ := exists_bytes_prefix h (hp.trans (by decide))
      exact ⟨_, s, trivial, rfl, hs⟩

/-! ## Covered blocks -/

/-- The loop over a `T[]` gets through the payload: one struct after the other is found in it, each
where the one before it left the offset, until that is behind the payload.  Of a simple type there
can be none. -/
def DataType.CoversAll (target : Target) : DataType → List UInt8 → Prop
  | .simple _, l => l = []
  | .struct ms, l => ∃ vs : List ms.Object, Through l.length (ms.Found target l []) 0 vs

/-- The assignment for a type gets through the block, and moves `index` from `i` to `j`. -/
def ParamType.Covered (target : Target) (block : NParamBlock) (id offset : UInt16) :
    ParamType → ℕ → ℕ → Prop
  | simple t, i, j => (∀ p ∈ block.getParam id, t.Readable p.m_buff) ∧ j = i
  | bool, i, j => j = i
  | struct ms, i, j => ∃ v, ms.Found target (payload (block.getParam id)) [] i v j
  | array d, i, j => (∃ p ∈ block.getParam offset, d.CoversAll target p.m_buff) ∧ j = i

/-- The loop over the ids of a strided param gets through the block. -/
def ParamType.CoveredStrided (target : Target) (block : NParamBlock) (id : UInt16) (t : ParamType) :
    List ℕ → ℕ → ℕ → Prop
  | [], i, j => j = i
  | k :: ks, i, j =>
    match block.getParam (UInt16.ofNat k) with
    | none => j = i
    | some _ =>
      ∃ m, t.Covered target block id (UInt16.ofNat k) i m ∧
        t.CoveredStrided target block id ks m j

/-- The assignment of a member gets through the block. -/
def Param.Covered (target : Target) (block : NParamBlock) : Param → ℕ → ℕ → Prop
  | single id type, i, j => type.Covered target block id id i j
  | strided id type s, i, j => type.CoveredStrided target block id (s.values id) i j

/-- The assignments of all members get through the block, `index` being `i` before them. -/
def Covered (target : Target) (block : NParamBlock) : List Param → ℕ → Prop
  | [], _ => True
  | p :: ps, i => ∃ j, p.Covered target block i j ∧ Covered target block ps j

/-! ## The assignments get through exactly these -/

section

variable {target : Target} {block : NParamBlock}

/-- A payload of the block is no longer than its length field can say. -/
private theorem length_le_of_getParam (hlen : ∀ p ∈ block.m_params.toList, p.m_buff.length ≤ 65535)
    {id : UInt16} {p : NParam} (h : block.getParam id = some p) : p.m_buff.length ≤ 65535 :=
  hlen p (List.mem_of_find?_eq_some h)

/-- What one turn of the loop over a `T[]` of structs reads. -/
theorem Members.constructElement_eq_ok {ms : Members} {p : NParam} (i : ℕ) (v : ms.Object) (j : ℕ) :
    (DataType.struct ms).constructElement target p i = .ok (v, j) ↔
      ms.Found target p.m_buff [] i v j :=
  @Members.construct_eq_ok target (some p) ms [] i v j

/-- The loop over a `T[]` that ends got through the payload. -/
theorem DataType.coversAll_of_readWhile {d : DataType} {p : NParam}
    (hp : p.m_buff.length ≤ 65535) {fuel : ℕ} {vs : List d.Object}
    (h : readWhile (d.constructElement target) p.getLength p fuel 0 = .ok vs) :
    d.CoversAll target p.m_buff := by
  have hlength : p.getLength = p.m_buff.length := Nat.mod_eq_of_lt (by omega)
  rw [hlength] at h
  cases d with
  | simple t =>
    by_contra hne
    have hthrough := (readWhile_eq_ok fun _ _ _ => Iff.rfl).mp h
    refine not_through_of_stuck (List.length_pos_of_ne_nil hne) ?_ vs hthrough.1
    intro v j hv
    obtain ⟨_, _, hv⟩ := Exec.bind_eq_ok.mp hv
    exact ((Prod.mk.inj (Except.ok.inj hv)).2).symm
  | struct ms => exact ⟨vs, ((readWhile_eq_ok Members.constructElement_eq_ok).mp h).1⟩

/-- The loop over a `T[]` ends when it can get through the payload. -/
theorem DataType.readWhile_of_coversAll {d : DataType} {p : NParam}
    (hp : p.m_buff.length ≤ 65535) (h : d.CoversAll target p.m_buff) :
    ∃ N, ∀ fuel, N ≤ fuel →
      ∃ vs, readWhile (d.constructElement target) p.getLength p fuel 0 = .ok vs := by
  have hlength : p.getLength = p.m_buff.length := Nat.mod_eq_of_lt (by omega)
  rw [hlength]
  cases d with
  | simple t =>
    refine ⟨1, fun fuel hfuel => ⟨[], ?_⟩⟩
    obtain ⟨fuel, rfl⟩ := Nat.exists_eq_add_of_le' hfuel
    have hnil : p.m_buff = [] := h
    rw [readWhile, hnil]
    rfl
  | struct ms =>
    obtain ⟨vs, hvs⟩ := h
    refine ⟨vs.length + 1, fun fuel hfuel => ⟨vs, ?_⟩⟩
    exact (readWhile_eq_ok Members.constructElement_eq_ok).mpr ⟨hvs, hfuel⟩

/-- An assignment that ends without a fault got through the block. -/
theorem ParamType.covered_of_construct
    (hlen : ∀ p ∈ block.m_params.toList, p.m_buff.length ≤ 65535) {t : ParamType}
    {id offset : UInt16} {fuel i j : ℕ} {v : Option t.Object}
    (h : t.construct target fuel block id offset i = .ok (v, j)) :
    t.Covered target block id offset i j := by
  cases t with
  | simple t =>
    rw [ParamType.construct] at h
    cases hget : block.getParam id with
    | none =>
      rw [hget] at h
      obtain ⟨-, rfl⟩ := Prod.mk.inj (Except.ok.inj h)
      exact ⟨by simp [hget], rfl⟩
    | some p =>
      rw [hget] at h
      obtain ⟨x, hx, h⟩ := Exec.bind_eq_ok.mp h
      obtain ⟨-, rfl⟩ := Prod.mk.inj (Except.ok.inj h)
      have hread := (SimpleType.exists_get_eq_ok (length_le_of_getParam hlen hget)).mp ⟨x, hx⟩
      exact ⟨by simpa [hget] using hread, rfl⟩
  | bool =>
    rw [ParamType.construct] at h
    cases hget : block.getParam id with
    | none =>
      rw [hget] at h
      obtain ⟨-, rfl⟩ := Prod.mk.inj (Except.ok.inj h)
      rfl
    | some p =>
      rw [hget] at h
      obtain ⟨x, -, h⟩ := Exec.bind_eq_ok.mp h
      obtain ⟨-, rfl⟩ := Prod.mk.inj (Except.ok.inj h)
      rfl
  | struct ms =>
    obtain ⟨⟨v', j'⟩, hrun, h⟩ := Exec.bind_eq_ok.mp h
    obtain ⟨-, rfl⟩ := Prod.mk.inj (Except.ok.inj h)
    exact ⟨v', (ms.construct_eq_ok [] i v' _).mp hrun⟩
  | array d =>
    obtain ⟨p, hp, h⟩ := Exec.bind_eq_ok.mp h
    obtain ⟨vs, hvs, h⟩ := Exec.bind_eq_ok.mp h
    obtain ⟨-, rfl⟩ := Prod.mk.inj (Except.ok.inj h)
    have hget := deref_eq_ok.mp hp
    exact ⟨⟨p, hget, d.coversAll_of_readWhile (length_le_of_getParam hlen hget) hvs⟩, rfl⟩

/-- An assignment that can get through the block ends without a fault. -/
theorem ParamType.construct_of_covered
    (hlen : ∀ p ∈ block.m_params.toList, p.m_buff.length ≤ 65535) {t : ParamType}
    {id offset : UInt16} {i j : ℕ} (h : t.Covered target block id offset i j) :
    ∃ N, ∀ fuel, N ≤ fuel → ∃ v, t.construct target fuel block id offset i = .ok (v, j) := by
  cases t with
  | simple t =>
    obtain ⟨hread, rfl⟩ := h
    refine ⟨0, fun fuel _ => ?_⟩
    rw [ParamType.construct]
    cases hget : block.getParam id with
    | none => exact ⟨_, rfl⟩
    | some p =>
      have hlen_p := length_le_of_getParam hlen hget
      have hexists : ∃ v, t.get target.host p 0 = .ok v :=
        (SimpleType.exists_get_eq_ok hlen_p).mpr (hread p hget)
      obtain ⟨v, hv⟩ := hexists
      exact ⟨some v, by simp only [hv, Exec.ok_bind]⟩
  | bool =>
    obtain rfl := h
    refine ⟨0, fun fuel _ => ?_⟩
    rw [ParamType.construct]
    cases hget : block.getParam id with
    | none => exact ⟨_, rfl⟩
    | some p =>
      obtain ⟨v, hv⟩ := NParam.exists_getBool_eq_ok (length_le_of_getParam hlen hget)
      exact ⟨some v, by simp only [hv, Exec.ok_bind]⟩
  | struct ms =>
    obtain ⟨v, hv⟩ := h
    have hrun := (ms.construct_eq_ok [] i v j).mpr hv
    exact ⟨0, fun fuel _ => ⟨some v, by simp only [ParamType.construct, hrun, Exec.ok_bind]⟩⟩
  | array d =>
    obtain ⟨⟨p, hget, hcovers⟩, rfl⟩ := h
    obtain ⟨N, hN⟩ := d.readWhile_of_coversAll (length_le_of_getParam hlen hget) hcovers
    refine ⟨N, fun fuel hfuel => ?_⟩
    obtain ⟨vs, hvs⟩ := hN fuel hfuel
    exact ⟨some vs, by simp only [ParamType.construct, deref_eq_ok.mpr hget, hvs, Exec.ok_bind]⟩

/-- The loop over the ids of a strided param got through the block if it ends without a fault. -/
theorem ParamType.coveredStrided_of_construct
    (hlen : ∀ p ∈ block.m_params.toList, p.m_buff.length ≤ 65535) {t : ParamType} {id : UInt16}
    {fuel : ℕ} {ks : List ℕ} {i j : ℕ} {vs : List (Option t.Object)}
    (h : t.constructStrided target fuel block id ks i = .ok (vs, j)) :
    t.CoveredStrided target block id ks i j := by
  induction ks generalizing i vs with
  | nil =>
    obtain ⟨-, rfl⟩ := Prod.mk.inj (Except.ok.inj h)
    rfl
  | cons k ks ih =>
    rw [ParamType.constructStrided] at h
    rw [ParamType.CoveredStrided]
    cases hget : block.getParam (UInt16.ofNat k) with
    | none =>
      rw [hget] at h
      obtain ⟨-, rfl⟩ := Prod.mk.inj (Except.ok.inj h)
      rfl
    | some p =>
      rw [hget] at h
      obtain ⟨⟨v, m⟩, hv, h⟩ := Exec.bind_eq_ok.mp h
      obtain ⟨⟨vs', j'⟩, hvs, h⟩ := Exec.bind_eq_ok.mp h
      obtain ⟨-, rfl⟩ := Prod.mk.inj (Except.ok.inj h)
      exact ⟨m, ParamType.covered_of_construct hlen hv, ih hvs⟩

/-- The loop over the ids of a strided param ends without a fault if it can get through the
block. -/
theorem ParamType.constructStrided_of_covered
    (hlen : ∀ p ∈ block.m_params.toList, p.m_buff.length ≤ 65535) {t : ParamType} {id : UInt16}
    {ks : List ℕ} {i j : ℕ} (h : t.CoveredStrided target block id ks i j) :
    ∃ N, ∀ fuel, N ≤ fuel →
      ∃ vs, t.constructStrided target fuel block id ks i = .ok (vs, j) := by
  induction ks generalizing i with
  | nil =>
    obtain rfl := h
    exact ⟨0, fun fuel _ => ⟨[], rfl⟩⟩
  | cons k ks ih =>
    rw [ParamType.CoveredStrided] at h
    cases hget : block.getParam (UInt16.ofNat k) with
    | none =>
      rw [hget] at h
      obtain rfl := h
      exact ⟨0, fun fuel _ => ⟨[], by simp only [ParamType.constructStrided, hget]⟩⟩
    | some p =>
      rw [hget] at h
      obtain ⟨m, hfirst, hrest⟩ := h
      obtain ⟨N₁, hN₁⟩ := ParamType.construct_of_covered hlen hfirst
      obtain ⟨N₂, hN₂⟩ := ih hrest
      refine ⟨max N₁ N₂, fun fuel hfuel => ?_⟩
      obtain ⟨v, hv⟩ := hN₁ fuel ((le_max_left _ _).trans hfuel)
      obtain ⟨vs, hvs⟩ := hN₂ fuel ((le_max_right _ _).trans hfuel)
      exact ⟨v :: vs, by simp only [ParamType.constructStrided, hget, hv, hvs, Exec.ok_bind]⟩

/-- The assignment of a member got through the block if it ends without a fault. -/
theorem Param.covered_of_construct
    (hlen : ∀ p ∈ block.m_params.toList, p.m_buff.length ≤ 65535) {p : Param} {fuel i j : ℕ}
    {a : Assignment} (h : p.construct target fuel block i = .ok (a, j)) :
    p.Covered target block i j := by
  cases p with
  | single id type =>
    obtain ⟨⟨v, k⟩, hv, h⟩ := Exec.bind_eq_ok.mp h
    obtain ⟨-, rfl⟩ := Prod.mk.inj (Except.ok.inj h)
    exact ParamType.covered_of_construct hlen hv
  | strided id type s =>
    obtain ⟨⟨v, k⟩, hv, h⟩ := Exec.bind_eq_ok.mp h
    obtain ⟨-, rfl⟩ := Prod.mk.inj (Except.ok.inj h)
    exact ParamType.coveredStrided_of_construct hlen hv

/-- The assignment of a member ends without a fault if it can get through the block. -/
theorem Param.construct_of_covered
    (hlen : ∀ p ∈ block.m_params.toList, p.m_buff.length ≤ 65535) {p : Param} {i j : ℕ}
    (h : p.Covered target block i j) :
    ∃ N, ∀ fuel, N ≤ fuel → ∃ a, p.construct target fuel block i = .ok (a, j) := by
  cases p with
  | single id type =>
    obtain ⟨N, hN⟩ := ParamType.construct_of_covered hlen h
    refine ⟨N, fun fuel hfuel => ?_⟩
    obtain ⟨v, hv⟩ := hN fuel hfuel
    exact ⟨.single id type v, by simp only [Param.construct, hv, Exec.ok_bind]⟩
  | strided id type s =>
    obtain ⟨N, hN⟩ := ParamType.constructStrided_of_covered hlen h
    refine ⟨N, fun fuel hfuel => ?_⟩
    obtain ⟨v, hv⟩ := hN fuel hfuel
    exact ⟨.strided id type s v, by simp only [Param.construct, hv, Exec.ok_bind]⟩

theorem covered_of_constructFrom
    (hlen : ∀ p ∈ block.m_params.toList, p.m_buff.length ≤ 65535) {ps : List Param} {fuel i : ℕ}
    {as : List Assignment} (h : constructFrom target fuel block ps i = .ok as) :
    Covered target block ps i := by
  induction ps generalizing i as with
  | nil => trivial
  | cons p ps ih =>
    obtain ⟨⟨a, j⟩, ha, h⟩ := Exec.bind_eq_ok.mp h
    obtain ⟨as', has, -⟩ := Exec.bind_eq_ok.mp h
    exact ⟨j, Param.covered_of_construct hlen ha, ih has⟩

theorem constructFrom_of_covered
    (hlen : ∀ p ∈ block.m_params.toList, p.m_buff.length ≤ 65535) {ps : List Param} {i : ℕ}
    (h : Covered target block ps i) :
    ∃ N, ∀ fuel, N ≤ fuel → ∃ as, constructFrom target fuel block ps i = .ok as := by
  induction ps generalizing i with
  | nil => exact ⟨0, fun fuel _ => ⟨[], rfl⟩⟩
  | cons p ps ih =>
    obtain ⟨j, hp, hps⟩ := h
    obtain ⟨N₁, hN₁⟩ := Param.construct_of_covered hlen hp
    obtain ⟨N₂, hN₂⟩ := ih hps
    refine ⟨max N₁ N₂, fun fuel hfuel => ?_⟩
    obtain ⟨a, ha⟩ := hN₁ fuel ((le_max_left _ _).trans hfuel)
    obtain ⟨as, has⟩ := hN₂ fuel ((le_max_right _ _).trans hfuel)
    exact ⟨a :: as, by simp only [constructFrom, ha, has, Exec.ok_bind]⟩

end

/-- **When the buffer constructor gets through a block**: its member assignments end, without
following a null pointer or reading behind a payload, exactly when the block covers the
description. -/
theorem construct_total_iff (target : Target) (params : List Param) (block : NParamBlock)
    (hlen : ∀ p ∈ block.m_params.toList, p.m_buff.length ≤ 65535) :
    (∃ fuel as, construct target fuel params block = .ok as) ↔ Covered target block params 0 := by
  constructor
  · rintro ⟨fuel, as, h⟩
    exact covered_of_constructFrom hlen h
  · intro h
    obtain ⟨N, hN⟩ := constructFrom_of_covered hlen h
    exact ⟨N, hN N le_rfl⟩

/-- A strided `T[]` with two present ids, and an absent simple param, are covered. -/
theorem construct_total_dimensions :
    ∃ fuel as, construct ⟨.little, fun _ => 1000⟩ fuel
      [.strided 5700 (.array (.struct pixelDimensions)) ⟨2, 5750, by decide, by decide⟩,
        .single 7 (.simple .string)]
      (NParamBlock.empty.addRecords [(5700, [0, 1, 0, 2, 0, 3, 0, 4]), (5702, [])]) = .ok as := by
  refine (construct_total_iff _ _ _ (by decide)).mpr ⟨0, ⟨0, ?_, 0, ?_, rfl⟩, 0, ?_, trivial⟩
  · refine ⟨⟨⟨5700, [0, 1, 0, 2, 0, 3, 0, 4]⟩, rfl, ?_⟩, rfl⟩
    let vs : List pixelDimensions.Val :=
      [((1 : UInt16), (2 : UInt16), ()), ((3 : UInt16), (4 : UInt16), ())]
    have hlen : (vs.flatMap pixelDimensions.encoding).length ≤ 65535 := by decide
    refine ⟨vs.map pixelDimensions.object, (Members.through_object_iff ?_ hlen).mpr ?_⟩
    · exact List.forall_mem_cons.mpr ⟨⟨trivial, trivial, trivial⟩,
        List.forall_mem_cons.mpr ⟨⟨trivial, trivial, trivial⟩, List.forall_mem_nil _⟩⟩
    · refine List.forall_mem_cons.mpr ⟨⟨⟨by decide, trivial, by decide, trivial, trivial⟩, ?_⟩,
        List.forall_mem_cons.mpr ⟨⟨⟨by decide, trivial, by decide, trivial, trivial⟩, ?_⟩,
          List.forall_mem_nil _⟩⟩ <;>
      exact List.cons_ne_nil _ _
  · exact ⟨⟨⟨5702, []⟩, rfl, [], le_rfl⟩, rfl⟩
  · exact ⟨fun p hp => (nomatch hp), rfl⟩

/-- A block without the struct param of the description makes the constructor follow a null
pointer, whatever the fuel. -/
theorem construct_null_struct :
    ¬∃ fuel as, construct ⟨.little, fun _ => 1000⟩ fuel [.single 1300 (.struct indexAndCount)]
      NParamBlock.empty = .ok as := by
  rintro ⟨fuel, as, h⟩
  have hnull : construct ⟨.little, fun _ => 1000⟩ fuel [.single 1300 (.struct indexAndCount)]
      NParamBlock.empty = .error .nullPointer := rfl
  exact absurd (hnull.symm.trans h) (by simp)

end CppCore.Generator
