import CppCore.Generator.Struct

/-!
# Reading structs back

What the generated struct constructor does, as a relation between a payload, the object that is
read from it and the offsets before and behind; and what it makes of the bytes that `serialize`
wrote.  It finds them again unless a name in its body hides a member.

## Main definitions

* `Members.Found` — what the constructor reads; `Members.construct_eq_ok`.
* `Members.Valid` — the values the wire format has room for; `Members.encoding` their bytes.
* `Members.Visible` — the values none of whose members is hidden.
* `Members.exact_found` — these are found exactly where their encodings stand.
* `Members.found_iff_of_clear` — where no name can hide a member, only encodings are found.
* `Members.construct_eq_object_iff` — the values that are recovered are those of `Visible`.
-/

namespace CppCore.Generator

open Lib Ngp

/-! ## What the constructor reads -/

mutual

/-- The object is read from a payload at the offset `i`, and the index is `j` then. -/
def DataType.Found (target : Target) (bytes : List UInt8) :
    (d : DataType) → ℕ → d.Object → ℕ → Prop
  | .simple t, i, v, j =>
    t.Fits v ∧ t.encoding v <+: bytes.drop (t.offset i) ∧ j = add32 i (t.encoding v).length
  | .struct ms, i, v, j => ms.Found target bytes [] i v j

/-- The members are read from a payload at the offset `i`, and the index is `j` then.  One that is
called `index` moves the index to its value; a vector is read by the turns of its loop. -/
def Members.Found (target : Target) (bytes : List UInt8) :
    (ms : Members) → Counts → ℕ → ms.Object → ℕ → Prop
  | .nil, _, i, _, j => j = i
  | .cons name none d rest, counts, i, (v, vs), j =>
    ∃ x k, d.Found target bytes i x k ∧
      if name = "index" then
        v = none ∧ rest.Found target bytes counts (d.assignIndex x k) vs j
      else
        v = some x ∧ rest.Found target bytes (declare name (d.count x) counts) k vs j
  | .cons _ (some size) d rest, counts, i, (v, vs), j =>
    ∃ n k, size.reserved counts i = .ok n ∧ n ≤ target.max_size d ∧
      Row (size.limit n) (d.Found target bytes) 0 i v k ∧
        rest.Found target bytes counts k vs j

end

/-- The payload behind a pointer; a null pointer has none. -/
def payload (param : Option NParam) : List UInt8 := (param.map NParam.m_buff).getD []

@[simp] theorem payload_some (p : NParam) : payload (some p) = p.m_buff := rfl

/-- A size is a number of thirty-two bits. -/
theorem Size.resolve_lt {size : Size} {counts : Counts} {n : ℕ}
    (h : size.resolve counts = .ok n) : n < 2 ^ 32 := by
  cases size with
  | const m =>
    obtain rfl := Except.ok.inj h
    exact m.toNat_lt
  | ref member =>
    rw [Size.resolve] at h
    split at h
    · obtain rfl := Except.ok.inj h
      exact UInt32.toNat_lt _
    · cases h

/-- So the counter of the loop stays below the greatest one. -/
theorem Size.limit_lt {size : Size} {counts : Counts} {i n : ℕ}
    (h : size.reserved counts i = .ok n) {k m : ℕ} (hk : k < size.limit n k m) :
    k < 2 ^ 32 - 1 := by
  have hn : n < 2 ^ 32 := by
    rw [Size.reserved] at h
    split at h
    · obtain rfl := Except.ok.inj h
      exact Nat.mod_lt _ (by decide)
    · exact Size.resolve_lt h
  have hm : m % 2 ^ 32 < 2 ^ 32 := Nat.mod_lt _ (by decide)
  rw [Size.limit] at hk
  split at hk
  · omega
  · split at hk <;> omega

/-- What loading a vector does. -/
theorem loadVector_eq_ok {α : Type} {max_size : ℕ} {size : Size} {counts : Counts}
    {construct : Option NParam → ℕ → Exec (α × ℕ)} {param : Option NParam}
    {P : ℕ → α → ℕ → Prop} (h : ∀ i a j, construct param i = .ok (a, j) ↔ P i a j) {i : ℕ}
    {v : List α} {j : ℕ} :
    loadVector max_size size counts construct param i = .ok (v, j) ↔
      ∃ n, size.reserved counts i = .ok n ∧ n ≤ max_size ∧ Row (size.limit n) P 0 i v j := by
  simp only [loadVector, reserve, Exec.bind_eq_ok]
  refine exists_congr fun n => and_congr_right fun hn => ?_
  have hlimit : ∀ k m, k < size.limit n k m → k < 2 ^ 32 - 1 := fun k m hk => Size.limit_lt hn hk
  rw [readFor_eq_ok h hlimit (Nat.zero_le _) (by decide)]
  constructor
  · rintro ⟨u, hu, hrow⟩
    split at hu
    · rename_i hle
      exact ⟨hle, hrow⟩
    · cases hu
  · rintro ⟨hle, hrow⟩
    exact ⟨(), if_pos hle, hrow⟩

mutual

theorem DataType.construct_eq_ok {target : Target} {param : Option NParam} :
    ∀ (d : DataType) (i : ℕ) (v : d.Object) (j : ℕ),
      d.construct target param i = .ok (v, j) ↔ d.Found target (payload param) i v j
  | .simple t, i, v, j => by
    cases param with
    | none =>
      refine ⟨fun h => (by cases h), fun h => ?_⟩
      have hnil : t.encoding v = [] := by simpa [payload] using h.2.1
      exact absurd hnil (t.encoding_ne_nil v)
    | some p => exact SimpleType.incGet_eq_ok (t := t)
  | .struct ms, i, v, j => ms.construct_eq_ok [] i v j

/-- **What the constructor of a struct does**, on any payload and from any index. -/
theorem Members.construct_eq_ok {target : Target} {param : Option NParam} :
    ∀ (ms : Members) (counts : Counts) (i : ℕ) (v : ms.Object) (j : ℕ),
      ms.construct target counts param i = .ok (v, j) ↔
        ms.Found target (payload param) counts i v j
  | .nil, _, _, _, _ => by
    constructor
    · intro h
      cases h
      rfl
    · rintro rfl
      rfl
  | .cons name none d rest, counts, i, (v, vs), j => by
    simp only [Members.construct, Members.Found, Exec.bind_eq_ok, Prod.exists,
      d.construct_eq_ok]
    refine exists₂_congr fun x k => and_congr_right fun _ => ?_
    by_cases hname : name = "index"
    · simp only [if_pos hname, Exec.bind_eq_ok, Prod.exists, rest.construct_eq_ok]
      constructor
      · rintro ⟨vs', j', hrest, heq⟩
        cases heq
        exact ⟨rfl, hrest⟩
      · rintro ⟨rfl, hrest⟩
        exact ⟨vs, j, hrest, rfl⟩
    · simp only [if_neg hname, Exec.bind_eq_ok, Prod.exists, rest.construct_eq_ok]
      constructor
      · rintro ⟨vs', j', hrest, heq⟩
        cases heq
        exact ⟨rfl, hrest⟩
      · rintro ⟨rfl, hrest⟩
        exact ⟨vs, j, hrest, rfl⟩
  | .cons _ (some size) d rest, counts, i, (v, vs), j => by
    simp only [Members.construct, Members.Found, Exec.bind_eq_ok, Prod.exists,
      rest.construct_eq_ok, loadVector_eq_ok d.construct_eq_ok]
    constructor
    · rintro ⟨v', k, ⟨n, hn, hle, hrow⟩, vs', j', hrest, heq⟩
      cases heq
      exact ⟨n, k, hn, hle, hrow, hrest⟩
    · rintro ⟨n, k, hn, hle, hrow, hrest⟩
      exact ⟨v, k, ⟨n, hn, hle, hrow⟩, vs, j, hrest, rfl⟩

end

/-- No two objects are found at an offset. -/
theorem Members.found_unique {target : Target} {bytes : List UInt8} {ms : Members}
    {counts : Counts} {i : ℕ} {v w : ms.Object} {j k : ℕ}
    (hv : ms.Found target bytes counts i v j) (hw : ms.Found target bytes counts i w k) :
    v = w ∧ j = k := by
  have hread := @Members.construct_eq_ok target (some ⟨0, bytes⟩) ms counts i
  exact Prod.mk.inj (Exec.unique ((hread v j).mpr hv) ((hread w k).mpr hw))

/-! ## Encodings -/

mutual

/-- The value fits its wire type. -/
def DataType.Valid (target : Target) : (d : DataType) → d.Val → Prop
  | .simple t, v => t.Fits v
  | .struct ms, v => ms.Valid target [] v

/-- The members fit their wire types, and every vector, which like any vector is not longer than
`max_size`, has as many elements as its size says. -/
def Members.Valid (target : Target) : (ms : Members) → Counts → ms.Val → Prop
  | .nil, _, _ => True
  | .cons name none d rest, counts, (v, vs) =>
    d.Valid target v ∧ rest.Valid target (declare name (d.count (d.object v)) counts) vs
  | .cons _ (some size) d rest, counts, (v, vs) =>
    (size.resolve counts = .ok v.length ∧ v.length ≤ target.max_size d ∧
      ∀ x ∈ v, d.Valid target x) ∧ rest.Valid target counts vs

end

mutual

/-- The bytes `serialize` appends. -/
def DataType.encoding : (d : DataType) → d.Val → List UInt8
  | .simple t, v => t.encoding v
  | .struct ms, v => ms.encoding v

/-- The bytes `serialize` appends. -/
def Members.encoding : (ms : Members) → ms.Val → List UInt8
  | .nil, _ => []
  | .cons _ none d rest, (v, vs) => d.encoding v ++ rest.encoding vs
  | .cons _ (some _) d rest, (v, vs) => v.flatMap d.encoding ++ rest.encoding vs

end

mutual

/-- `serialize` appends the encoding. -/
theorem DataType.m_buff_serialize :
    ∀ (d : DataType) (v : d.Val) (p : NParam),
      (d.serialize v p).m_buff = p.m_buff ++ d.encoding v
  | .simple t, v, p => t.m_buff_add p v
  | .struct ms, v, p => ms.m_buff_serialize v p

/-- `serialize` appends the encoding. -/
theorem Members.m_buff_serialize :
    ∀ (ms : Members) (v : ms.Val) (p : NParam),
      (ms.serialize v p).m_buff = p.m_buff ++ ms.encoding v
  | .nil, _, p => (List.append_nil p.m_buff).symm
  | .cons _ none d rest, (v, vs), p => by
    simp only [Members.serialize, Members.encoding, rest.m_buff_serialize, d.m_buff_serialize,
      List.append_assoc]
  | .cons _ (some _) d rest, (v, vs), p => by
    have hfold : ∀ (l : List d.Val) (p : NParam),
        (l.foldl (fun param x => d.serialize x param) p).m_buff =
          p.m_buff ++ l.flatMap d.encoding := by
      intro l
      induction l with
      | nil => simp
      | cons x l ih =>
        intro p
        rw [List.foldl_cons, ih, d.m_buff_serialize, List.flatMap_cons, List.append_assoc]
    simp only [Members.serialize, Members.encoding, rest.m_buff_serialize, hfold,
      List.append_assoc]

end

mutual

/-- No member called `index` is anywhere in the value, and no vector with elements has the size
`@i`: these two are hidden from the constructor. -/
def DataType.Visible : (d : DataType) → d.Val → Prop
  | .simple _, _ => True
  | .struct ms, v => ms.Visible v

/-- No member called `index` is anywhere in the value, and no vector with elements has the size
`@i`: these two are hidden from the constructor. -/
def Members.Visible : (ms : Members) → ms.Val → Prop
  | .nil, _ => True
  | .cons name none d rest, (v, vs) => name ≠ "index" ∧ d.Visible v ∧ rest.Visible vs
  | .cons _ (some size) d rest, (v, vs) =>
    ((size = .ref "i" → v = []) ∧ ∀ x ∈ v, d.Visible x) ∧ rest.Visible vs

end

/-- A vector whose size is neither `@index` nor `@i` is read by as many turns as it has elements;
one whose size is `@i` by none. -/
theorem exact_row {bytes : List UInt8} (hl : bytes.length ≤ 65535) {α β : Type}
    {P : ℕ → β → ℕ → Prop} {f : α → β} {visible : α → Prop} {enc : α → List UInt8} {v : List α}
    (h : ∀ x ∈ v, Exact bytes 65535 (fun i j => P i (f x) j) (visible x) (enc x)) {size : Size}
    (hindex : size ≠ .ref "index") :
    Exact bytes 65535 (fun i j => Row (size.limit v.length) P 0 i (v.map f) j)
      ((size = .ref "i" → v = []) ∧ ∀ x ∈ v, visible x) (v.flatMap enc) := by
  by_cases hi : size = .ref "i"
  · have hlimit : size.limit v.length = fun k _ => k := by
      funext k m
      rw [Size.limit, if_neg hindex, if_pos hi]
    intro i j _
    simp only [hlimit, row_counter, List.map_eq_nil_iff]
    constructor
    · rintro ⟨rfl, rfl⟩
      simp
    · rintro ⟨⟨hv, -⟩, -, rfl⟩
      simp [hv hi]
  · have hlimit : size.limit v.length = fun _ _ => v.length := by
      funext k m
      rw [Size.limit, if_neg hindex, if_neg hi]
    intro i j hij
    simp only [hlimit, row_const (Nat.zero_le _), List.length_map, reads_map, Nat.zero_add,
      true_and, hi, false_implies]
    exact Exact.reads hl h i j hij

mutual

theorem DataType.exact_found {target : Target} {bytes : List UInt8} (hl : bytes.length ≤ 65535) :
    ∀ (d : DataType) (v : d.Val), d.Valid target v →
      Exact bytes 65535 (fun i j => d.Found target bytes i (d.object v) j) (d.Visible v)
        (d.encoding v)
  | .simple t, v, hv => by
    intro i j hi
    have hoffset : t.offset i = i := SimpleType.offset_of_le hi
    constructor
    · rintro ⟨-, hpre, rfl⟩
      rw [hoffset] at hpre
      have := end_le_bound hpre hl hi
      exact ⟨trivial, hpre, add32_of_lt (by omega)⟩
    · rintro ⟨-, hpre, rfl⟩
      have := end_le_bound hpre hl hi
      exact ⟨hv, by rwa [hoffset], (add32_of_lt (by omega)).symm⟩
  | .struct ms, v, hv => ms.exact_found hl [] v hv rfl

/-- **Which values the constructor finds**: of those with room in the wire format the ones without a
hidden member, where their encodings stand. -/
theorem Members.exact_found {target : Target} {bytes : List UInt8} (hl : bytes.length ≤ 65535) :
    ∀ (ms : Members) (counts : Counts) (v : ms.Val), ms.Valid target counts v →
      counts.lookup "index" = none →
      Exact bytes 65535 (fun i j => ms.Found target bytes counts i (ms.object v) j) (ms.Visible v)
        (ms.encoding v)
  | .nil, _, _, _, _ => Exact.nil
  | .cons name none d rest, counts, (v, vs), hv, hcounts => by
    intro i j hi
    by_cases hname : name = "index"
    · simp [Members.Found, Members.object, Members.Visible, hname]
    · have hnext : (declare name (d.count (d.object v)) counts).lookup "index" = none := by
        rw [declare]
        cases d.count (d.object v) with
        | none => exact hcounts
        | some n => simpa [Ne.symm hname] using hcounts
      have hseq := (d.exact_found hl v hv.1).seq hl (rest.exact_found hl _ vs hv.2 hnext) i j hi
      simp only [Members.Found, Members.object, hname, ite_false, Option.some.injEq,
        Members.Visible, ne_eq, not_false_eq_true, true_and]
      refine Iff.trans ?_ hseq
      constructor
      · rintro ⟨x, k, hx, rfl, hrest⟩
        exact ⟨k, hx, hrest⟩
      · rintro ⟨k, hx, hrest⟩
        exact ⟨_, k, hx, rfl, hrest⟩
  | .cons _ (some size) d rest, counts, (v, vs), ⟨⟨hsize, hmax, hv⟩, hvs⟩, hcounts => by
    have hindex : size ≠ .ref "index" := by
      rintro rfl
      simp [Size.resolve, hcounts] at hsize
    have hreserved : ∀ i, size.reserved counts i = .ok v.length := by
      intro i
      rw [Size.reserved, if_neg hindex, hsize]
    have hrow := exact_row hl (fun x hx => d.exact_found hl x (hv x hx)) hindex
    intro i j hi
    refine Iff.trans ?_ (hrow.seq hl (rest.exact_found hl counts vs hvs hcounts) i j hi)
    simp only [Members.Found, Members.object, hreserved, Except.ok.injEq]
    constructor
    · rintro ⟨n, k, rfl, -, hrow, hrest⟩
      exact ⟨k, hrow, hrest⟩
    · rintro ⟨k, hrow, hrest⟩
      exact ⟨_, k, rfl, hmax, hrow, hrest⟩

end

mutual

theorem DataType.m_paramID_serialize :
    ∀ (d : DataType) (v : d.Val) (p : NParam), (d.serialize v p).m_paramID = p.m_paramID
  | .simple t, v, p => t.m_paramID_add p v
  | .struct ms, v, p => ms.m_paramID_serialize v p

theorem Members.m_paramID_serialize :
    ∀ (ms : Members) (v : ms.Val) (p : NParam), (ms.serialize v p).m_paramID = p.m_paramID
  | .nil, _, _ => rfl
  | .cons _ none d rest, (v, vs), p => by
    rw [Members.serialize, rest.m_paramID_serialize, d.m_paramID_serialize]
  | .cons _ (some _) d rest, (v, vs), p => by
    have hfold : ∀ (l : List d.Val) (p : NParam),
        (l.foldl (fun param x => d.serialize x param) p).m_paramID = p.m_paramID := by
      intro l
      induction l with
      | nil => exact fun _ => rfl
      | cons x l ih =>
        intro p
        rw [List.foldl_cons, ih, d.m_paramID_serialize]
    rw [Members.serialize, rest.m_paramID_serialize, hfold]

end

mutual

/-- No integer, enum or string is anywhere in the value: all it has is empty vectors. -/
def DataType.Hollow : (d : DataType) → d.Val → Prop
  | .simple _, _ => False
  | .struct ms, v => ms.Hollow v

/-- No integer, enum or string is anywhere in the value: all it has is empty vectors. -/
def Members.Hollow : (ms : Members) → ms.Val → Prop
  | .nil, _ => True
  | .cons _ none d rest, (v, vs) => d.Hollow v ∧ rest.Hollow vs
  | .cons _ (some _) d rest, (v, vs) => (∀ x ∈ v, d.Hollow x) ∧ rest.Hollow vs

end

mutual

theorem DataType.encoding_eq_nil : ∀ (d : DataType) (v : d.Val), d.encoding v = [] ↔ d.Hollow v
  | .simple t, v => iff_false_intro (t.encoding_ne_nil v)
  | .struct ms, v => ms.encoding_eq_nil v

/-- A value takes no room exactly when it is hollow. -/
theorem Members.encoding_eq_nil :
    ∀ (ms : Members) (v : ms.Val), ms.encoding v = [] ↔ ms.Hollow v
  | .nil, _ => iff_true_intro rfl
  | .cons _ none d rest, (v, vs) => by
    rw [Members.encoding, List.append_eq_nil_iff, d.encoding_eq_nil v, rest.encoding_eq_nil vs]
    rfl
  | .cons _ (some _) d rest, (v, vs) => by
    rw [Members.encoding, List.append_eq_nil_iff, List.flatMap_eq_nil_iff, rest.encoding_eq_nil vs]
    exact and_congr_left fun _ => forall₂_congr fun x _ => d.encoding_eq_nil x

end

mutual

/-- No member is called `index`, and no size is `@index` or `@i`. -/
def DataType.Clear : DataType → Prop
  | .simple _ => True
  | .struct ms => ms.Clear

/-- No member is called `index`, and no size is `@index` or `@i`. -/
def Members.Clear : Members → Prop
  | .nil => True
  | .cons name none d rest => name ≠ "index" ∧ d.Clear ∧ rest.Clear
  | .cons _ (some size) d rest => size ≠ .ref "index" ∧ size ≠ .ref "i" ∧ d.Clear ∧ rest.Clear

end

mutual

theorem DataType.visible_of_clear :
    ∀ (d : DataType), d.Clear → ∀ v : d.Val, d.Visible v
  | .simple _, _, _ => trivial
  | .struct ms, h, v => ms.visible_of_clear h v

/-- Then nothing is hidden. -/
theorem Members.visible_of_clear :
    ∀ (ms : Members), ms.Clear → ∀ v : ms.Val, ms.Visible v
  | .nil, _, _ => trivial
  | .cons _ none d rest, ⟨hname, hd, hrest⟩, (v, vs) =>
    ⟨hname, d.visible_of_clear hd v, rest.visible_of_clear hrest vs⟩
  | .cons _ (some _) d rest, ⟨_, hi, hd, hrest⟩, (_, vs) =>
    ⟨⟨fun h => absurd h hi, fun x _ => d.visible_of_clear hd x⟩, rest.visible_of_clear hrest vs⟩

end

/-- The objects that satisfy `P` one by one have values that satisfy `Q`. -/
private theorem exists_map_eq {α β : Type} {f : α → β} {Q : α → Prop} {os : List β}
    (h : ∀ o ∈ os, ∃ v, o = f v ∧ Q v) : ∃ vs : List α, os = vs.map f ∧ ∀ v ∈ vs, Q v := by
  induction os with
  | nil => exact ⟨[], rfl, by simp⟩
  | cons o os ih =>
    obtain ⟨⟨v, rfl, hv⟩, hos⟩ := List.forall_mem_cons.mp h
    obtain ⟨vs, rfl, hvs⟩ := ih hos
    exact ⟨v :: vs, rfl, List.forall_mem_cons.mpr ⟨hv, hvs⟩⟩

mutual

theorem DataType.exists_of_found {target : Target} {bytes : List UInt8} :
    ∀ (d : DataType), d.Clear → ∀ (i : ℕ) (o : d.Object) (j : ℕ), d.Found target bytes i o j →
      ∃ v, o = d.object v ∧ d.Valid target v
  | .simple _, _, _, o, _, hfound => ⟨o, rfl, hfound.1⟩
  | .struct ms, h, i, o, j, hfound => ms.exists_of_found h [] i o j hfound

/-- And the constructor makes nothing but objects with valid values. -/
theorem Members.exists_of_found {target : Target} {bytes : List UInt8} :
    ∀ (ms : Members), ms.Clear → ∀ (counts : Counts) (i : ℕ) (o : ms.Object) (j : ℕ),
      ms.Found target bytes counts i o j → ∃ v, o = ms.object v ∧ ms.Valid target counts v
  | .nil, _, _, _, o, _, _ => ⟨o, rfl, trivial⟩
  | .cons name none d rest, ⟨hname, hd, hrest⟩, counts, i, (o, os), j, hfound => by
    obtain ⟨x, k, hx, hfound⟩ := hfound
    rw [if_neg hname] at hfound
    obtain ⟨rfl, hfound⟩ := hfound
    obtain ⟨v, rfl, hv⟩ := d.exists_of_found hd i x k hx
    obtain ⟨vs, rfl, hvs⟩ := rest.exists_of_found hrest _ k os j hfound
    exact ⟨(v, vs), rfl, hv, hvs⟩
  | .cons _ (some size) d rest, ⟨hindex, hi, hd, hrest⟩, counts, i, (o, os), j, hfound => by
    obtain ⟨n, k, hn, hmax, hrow, hfound⟩ := hfound
    have hlimit : size.limit n = fun _ _ => n := by
      funext k m
      rw [Size.limit, if_neg hindex, if_neg hi]
    rw [Size.reserved, if_neg hindex] at hn
    have hlen := ((row_const (Nat.zero_le _)).mp (hlimit ▸ hrow)).1
    obtain ⟨v, rfl, hv⟩ := exists_map_eq (hrow.forall (d.exists_of_found hd))
    obtain ⟨vs, rfl, hvs⟩ := rest.exists_of_found hrest counts k os j hfound
    rw [Nat.zero_add, List.length_map] at hlen
    subst hlen
    exact ⟨(v, vs), rfl, ⟨hn, hmax, hv⟩, hvs⟩

end

/-- **Where no name hides a member** the constructor accepts exactly the encodings of valid values,
which it makes the object of, and leaves the index behind them. -/
theorem Members.found_iff_of_clear {target : Target} {bytes : List UInt8}
    (hl : bytes.length ≤ 65535) {ms : Members} (h : ms.Clear) {i : ℕ} (hi : i ≤ 65535)
    {o : ms.Object} {j : ℕ} :
    ms.Found target bytes [] i o j ↔
      ∃ v, o = ms.object v ∧ ms.Valid target [] v ∧ ms.encoding v <+: bytes.drop i ∧
        j = i + (ms.encoding v).length := by
  have hexact := fun v (hv : ms.Valid target [] v) j => ms.exact_found hl [] v hv rfl i j hi
  constructor
  · intro hfound
    obtain ⟨v, rfl, hv⟩ := ms.exists_of_found h [] i o j hfound
    exact ⟨v, rfl, hv, ((hexact v hv j).mp hfound).2⟩
  · rintro ⟨v, rfl, hv, hpre⟩
    exact (hexact v hv j).mpr ⟨ms.visible_of_clear h v, hpre⟩

/-- **A row of structs** is read up to its end exactly when each of them takes room and has no
hidden member. -/
theorem Members.through_object_iff {target : Target} {ms : Members} {vs : List ms.Val}
    (hvalid : ∀ v ∈ vs, ms.Valid target [] v) (hlen : (vs.flatMap ms.encoding).length ≤ 65535) :
    Through (vs.flatMap ms.encoding).length (ms.Found target (vs.flatMap ms.encoding) []) 0
        (vs.map ms.object) ↔ ∀ v ∈ vs, ms.Visible v ∧ ms.encoding v ≠ [] := by
  rw [through_map]
  have hexact : ∀ v ∈ vs, Exact (vs.flatMap ms.encoding) 65535
      (fun i j => ms.Found target (vs.flatMap ms.encoding) [] i (ms.object v) j) (ms.Visible v)
      (ms.encoding v) := fun v hv => ms.exact_found hlen [] v (hvalid v hv) rfl
  refine Exact.through hlen ?_ hexact (Nat.zero_le _) List.drop_zero
  intro i v j w k hv hw
  exact (Members.found_unique hv hw).2

/-! ## Reading back what was written -/

/-- **When a struct is recovered from its serialization**, whatever stands in the param before and
behind it: exactly when no member of the value is hidden from the constructor are all of them
assigned, and is the index moved from where `serialize` began to where it ended. -/
theorem Members.construct_eq_object_iff (target : Target) (ms : Members) (v : ms.Val)
    (hv : ms.Valid target [] v) (param : NParam) (rest : List UInt8)
    (hlen : ((ms.serialize v param).addByteArray rest).m_buff.length ≤ 65535) :
    ms.construct target [] (some ((ms.serialize v param).addByteArray rest)) param.m_buff.length =
        .ok (ms.object v, (ms.serialize v param).m_buff.length) ↔ ms.Visible v := by
  have hbuff : ((ms.serialize v param).addByteArray rest).m_buff =
      param.m_buff ++ (ms.encoding v ++ rest) := by
    rw [NParam.m_buff_addByteArray, ms.m_buff_serialize, List.append_assoc]
  have hstart : param.m_buff.length ≤ 65535 := by
    simp only [hbuff, List.length_append] at hlen
    omega
  have hfound := ms.exact_found hlen [] v hv rfl param.m_buff.length
    (ms.serialize v param).m_buff.length hstart
  rw [ms.construct_eq_ok, payload_some]
  refine hfound.trans ?_
  rw [hbuff, List.drop_left, ms.m_buff_serialize, List.length_append]
  simp

/-- `AreaMatch`. -/
def areaMatch : Members :=
  .cons "type" none (.simple (.enum .uint16)) <|
  .cons "id" none (.simple .string) <|
  .cons "name" none (.simple .string) <|
  .cons "nbr" none (.simple (.int .uint8)) <|
  .cons "regions" (some (.ref "nbr")) (.simple (.int .uint16)) .nil

/-- An area match with two regions behind three bytes and in front of one, on a little-endian
host. -/
theorem Members.construct_eq_object_areaMatch :
    let v : areaMatch.Val :=
      ((7 : ℤ), (⟨[0x31], by decide⟩ : CString), (⟨[0x41, 0x42], by decide⟩ : CString),
        (2 : UInt8), [(0x0a0b : UInt16), (0xff : UInt16)], ())
    let param := (areaMatch.serialize v ⟨1303, [9, 9, 9]⟩).addByteArray [0xee]
    param.m_buff.drop 3 = [0, 7, 0x31, 0, 0x41, 0x42, 0, 2, 0x0a, 0x0b, 0, 0xff, 0xee] ∧
      areaMatch.construct ⟨.little, fun _ => 1000⟩ [] (some param) 3 =
        .ok (areaMatch.object v, 15) := by
  intro v param
  refine ⟨by decide, ?_⟩
  have hv : areaMatch.Valid ⟨.little, fun _ => 1000⟩ [] v :=
    ⟨rfl, trivial, trivial, trivial, ⟨rfl, by decide, fun _ _ => trivial⟩, trivial⟩
  have hvisible : areaMatch.Visible v :=
    ⟨by decide, trivial, by decide, trivial, by decide, trivial, by decide, trivial,
      ⟨fun h => absurd h (by decide), fun _ _ => trivial⟩, trivial⟩
  exact (Members.construct_eq_object_iff ⟨.little, fun _ => 1000⟩ areaMatch v hv ⟨1303, [9, 9, 9]⟩
    [0xee] (by decide)).mpr hvisible

/-- `PixelDimensions`. -/
def pixelDimensions : Members :=
  .cons "width" none (.simple (.int .uint16)) (.cons "height" none (.simple (.int .uint16)) .nil)

/-- `IndexAndCount`. -/
def indexAndCount : Members :=
  .cons "index" none (.simple (.int .uint16)) (.cons "count" none (.simple (.int .uint16)) .nil)

/-- Its constructor assigns the index to its parameter, and reads the count from there. -/
theorem construct_indexAndCount :
    let v : indexAndCount.Val := ((1 : UInt16), (5 : UInt16), ())
    let param := indexAndCount.serialize v ⟨1300, []⟩
    param.m_buff = [0, 1, 0, 5] ∧ indexAndCount.Valid ⟨.little, fun _ => 1000⟩ [] v ∧
      indexAndCount.construct ⟨.little, fun _ => 1000⟩ [] (some param) 0 =
        .ok ((none, some (0x100 : UInt16), ()), 3) ∧
      indexAndCount.construct ⟨.little, fun _ => 1000⟩ [] (some param) 0 ≠
        .ok (indexAndCount.object v, param.m_buff.length) := by
  intro v param
  have hrun : indexAndCount.construct ⟨.little, fun _ => 1000⟩ [] (some param) 0 =
      .ok ((none, some (0x100 : UInt16), ()), 3) := rfl
  refine ⟨by decide, ⟨trivial, trivial, trivial⟩, hrun, ?_⟩
  rw [hrun]
  intro h
  cases h

end CppCore.Generator
