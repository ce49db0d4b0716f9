import CppCore.Lib.Words
import Mathlib.Data.List.Infix

/-!
# Tagged records

The framing of a sequence of records as tag, length and value: a sixteen-bit tag and a
sixteen-bit length, both most significant byte first, and as many bytes as the length says.

## Main definitions

* `Record`, `encodeRecords` — a record; the bytes of a sequence of them.
* `Record.Fits` — the length of the value can be written in sixteen bits.
* `parseRecords` — the records a byte sequence starts with, and whether they are all of it.
* `parseRecords_eq_true` — parsing is the inverse of encoding, and accepts nothing else.
* `prefix_parseRecords` — the records parsed are the longest sequence at the front.
* `recordsLength` — how many bytes they take.
-/

namespace CppCore.Lib

/-- A record: its tag and its value. -/
abbrev Record := UInt16 × List UInt8

/-- The value is short enough for the length field. -/
def Record.Fits (r : Record) : Prop := r.2.length < 2 ^ 16

/-- A record on the wire. -/
def encodeRecord (r : Record) : List UInt8 := be16 r.1 ++ be16 (UInt16.ofNat r.2.length) ++ r.2

/-- Records on the wire, one after the other. -/
def encodeRecords (rs : List Record) : List UInt8 := rs.flatMap encodeRecord

/-- The complete records `bytes` starts with, and whether nothing is left behind them. -/
def parseRecords : List UInt8 → List Record × Bool
  | t₁ :: t₀ :: n₁ :: n₀ :: rest =>
    if (ofBE16 n₁ n₀).toNat ≤ rest.length then
      let next := parseRecords (rest.drop (ofBE16 n₁ n₀).toNat)
      ((ofBE16 t₁ t₀, rest.take (ofBE16 n₁ n₀).toNat) :: next.1, next.2)
    else ([], false)
  | bytes => ([], bytes.isEmpty)
termination_by bytes => bytes.length
decreasing_by
  simp only [List.length_drop, List.length_cons]
  omega

@[simp] theorem encodeRecords_nil : encodeRecords [] = [] := rfl
@[simp] theorem encodeRecords_cons (r : Record) (rs : List Record) :
    encodeRecords (r :: rs) = encodeRecord r ++ encodeRecords rs := rfl

theorem encodeRecords_append (rs₁ rs₂ : List Record) :
    encodeRecords (rs₁ ++ rs₂) = encodeRecords rs₁ ++ encodeRecords rs₂ := List.flatMap_append

@[simp] theorem length_encodeRecord (r : Record) :
    (encodeRecord r).length = r.2.length + 4 := by
  simp [encodeRecord]
  omega

theorem length_encodeRecords (rs : List Record) :
    (encodeRecords rs).length = (rs.map fun r => r.2.length + 4).sum := by
  simp [encodeRecords, List.length_flatMap]

/-- The number of bytes does not depend on the order of the records. -/
theorem length_encodeRecords_perm {rs₁ rs₂ : List Record} (h : rs₁.Perm rs₂) :
    (encodeRecords rs₁).length = (encodeRecords rs₂).length :=
  (h.flatMap_right encodeRecord).length_eq

@[simp] theorem parseRecords_nil : parseRecords [] = ([], true) := by simp [parseRecords]

/-- Fewer than four bytes hold no record. -/
theorem parseRecords_of_length_lt {bytes : List UInt8} (h : bytes.length < 4) :
    parseRecords bytes = ([], bytes.isEmpty) := by
  unfold parseRecords
  split
  · simp only [List.length_cons] at h
    omega
  · rfl

/-- Four bytes and more start with a tag and a length. -/
theorem exists_eq_header {bytes : List UInt8} (h : 4 ≤ bytes.length) :
    ∃ t₁ t₀ n₁ n₀ rest, bytes = t₁ :: t₀ :: n₁ :: n₀ :: rest := by
  match bytes, h with
  | t₁ :: t₀ :: n₁ :: n₀ :: rest, _ => exact ⟨t₁, t₀, n₁, n₀, rest, rfl⟩

/-- **What becomes of any record in front**: the length field keeps sixteen bits, so many bytes are
read as its value, and the rest of the value is parsed like what follows. -/
theorem parseRecords_encodeRecord_append (r : Record) (rest : List UInt8) :
    parseRecords (encodeRecord r ++ rest) =
      ((r.1, r.2.take (r.2.length % 2 ^ 16)) ::
          (parseRecords (r.2.drop (r.2.length % 2 ^ 16) ++ rest)).1,
        (parseRecords (r.2.drop (r.2.length % 2 ^ 16) ++ rest)).2) := by
  obtain ⟨tag, value⟩ := r
  have hlen : (UInt16.ofNat value.length).toNat = value.length % 2 ^ 16 := UInt16.toNat_ofNat'
  have hle : value.length % 2 ^ 16 ≤ value.length := Nat.mod_le _ _
  have hshape : encodeRecord (tag, value) ++ rest =
      (tag >>> 8).toUInt8 :: tag.toUInt8 :: (UInt16.ofNat value.length >>> 8).toUInt8 ::
        (UInt16.ofNat value.length).toUInt8 :: (value ++ rest) := by
    simp [encodeRecord, be16]
  rw [hshape, parseRecords, ofBE16_be16, ofBE16_be16, hlen, if_pos (by
    rw [List.length_append]
    omega)]
  simp only [List.take_append_of_le_length hle, List.drop_append_of_le_length hle]

/-- A complete record in front is the first one parsed. -/
theorem parseRecords_cons {r : Record} (hr : r.Fits) (rest : List UInt8) :
    parseRecords (encodeRecord r ++ rest) =
      (r :: (parseRecords rest).1, (parseRecords rest).2) := by
  rw [parseRecords_encodeRecord_append, Nat.mod_eq_of_lt hr, List.take_length, List.drop_length,
    List.nil_append]

theorem parseRecords_append {rs : List Record} (hrs : ∀ r ∈ rs, r.Fits) (rest : List UInt8) :
    parseRecords (encodeRecords rs ++ rest) =
      (rs ++ (parseRecords rest).1, (parseRecords rest).2) := by
  induction rs with
  | nil => simp
  | cons r rs ih =>
    rw [encodeRecords_cons, List.append_assoc, parseRecords_cons (hrs r (by simp)),
      ih fun r' hr' => hrs r' (by simp [hr'])]
    rfl

/-- **What was parsed stands at the front**: the bytes are the encoding of the records and a
rest, which is empty exactly when parsing reports that the records are all there is. -/
theorem parseRecords_spec (bytes : List UInt8) :
    (∀ r ∈ (parseRecords bytes).1, r.Fits) ∧
      ∃ rest, bytes = encodeRecords (parseRecords bytes).1 ++ rest ∧
        ((parseRecords bytes).2 = true ↔ rest = []) := by
  induction bytes using parseRecords.induct with
  | case1 t₁ t₀ n₁ n₀ rest hle ih =>
    set next := parseRecords (rest.drop (ofBE16 n₁ n₀).toNat) with hnext
    have hparse : parseRecords (t₁ :: t₀ :: n₁ :: n₀ :: rest) =
        ((ofBE16 t₁ t₀, rest.take (ofBE16 n₁ n₀).toNat) :: next.1, next.2) := by
      rw [parseRecords, if_pos hle, ← hnext]
    obtain ⟨hfits, tail, htail, hok⟩ := ih
    rw [hparse]
    refine ⟨fun r hr => ?_, tail, ?_, hok⟩
    · rcases List.mem_cons.mp hr with rfl | hr
      · simp only [Record.Fits, List.length_take]
        have := (ofBE16 n₁ n₀).toNat_lt
        omega
      · exact hfits r hr
    · have hlen : UInt16.ofNat (rest.take (ofBE16 n₁ n₀).toNat).length = ofBE16 n₁ n₀ := by
        rw [List.length_take, Nat.min_eq_left hle]
        simp
      calc t₁ :: t₀ :: n₁ :: n₀ :: rest
          = t₁ :: t₀ :: n₁ :: n₀ :: (rest.take (ofBE16 n₁ n₀).toNat ++
              rest.drop (ofBE16 n₁ n₀).toNat) := by rw [List.take_append_drop]
        _ = _ := by
          rw [encodeRecords_cons, encodeRecord, hlen, be16_ofBE16, be16_ofBE16]
          simp only [List.cons_append, List.nil_append, List.append_assoc]
          rw [← htail]
  | case2 t₁ t₀ n₁ n₀ rest hgt =>
    have hparse : parseRecords (t₁ :: t₀ :: n₁ :: n₀ :: rest) = ([], false) := by
      rw [parseRecords, if_neg hgt]
    simp [hparse]
  | case3 bytes hshort =>
    have hparse : parseRecords bytes = ([], bytes.isEmpty) := by
      unfold parseRecords
      split
      · exact absurd rfl (hshort _ _ _ _ _)
      · rfl
    simp [hparse]

/-- **Parsing inverts encoding and accepts nothing else.** -/
theorem parseRecords_eq_true {bytes : List UInt8} {rs : List Record} :
    parseRecords bytes = (rs, true) ↔ (∀ r ∈ rs, r.Fits) ∧ bytes = encodeRecords rs := by
  constructor
  · intro h
    obtain ⟨hfits, rest, hbytes, hrest⟩ := parseRecords_spec bytes
    rw [h] at hfits hbytes hrest
    exact ⟨hfits, by rwa [hrest.mp rfl, List.append_nil] at hbytes⟩
  · rintro ⟨hfits, rfl⟩
    simpa using parseRecords_append hfits []

/-- **Parsing finds every record at the front**, also of bytes it does not accept. -/
theorem prefix_parseRecords {bytes : List UInt8} {rs : List Record} (hrs : ∀ r ∈ rs, r.Fits)
    (h : encodeRecords rs <+: bytes) : rs <+: (parseRecords bytes).1 := by
  obtain ⟨rest, rfl⟩ := h
  rw [parseRecords_append hrs]
  exact List.prefix_append _ _

/-- The number of bytes which the records at the front take. -/
def recordsLength (bytes : List UInt8) : ℕ := (encodeRecords (parseRecords bytes).1).length

/-- Fewer than four bytes hold no record. -/
theorem recordsLength_of_length_lt {bytes : List UInt8} (h : bytes.length < 4) :
    recordsLength bytes = 0 := by
  rw [recordsLength, parseRecords_of_length_lt h]
  rfl

variable {t₁ t₀ n₁ n₀ : UInt8} {rest : List UInt8}

/-- A complete record in front, and those behind it. -/
theorem recordsLength_of_complete (h : (ofBE16 n₁ n₀).toNat ≤ rest.length) :
    recordsLength (t₁ :: t₀ :: n₁ :: n₀ :: rest) =
      4 + (ofBE16 n₁ n₀).toNat + recordsLength (rest.drop (ofBE16 n₁ n₀).toNat) := by
  rw [recordsLength, parseRecords, if_pos h, encodeRecords_cons, List.length_append,
    length_encodeRecord, List.length_take, Nat.min_eq_left h, recordsLength]
  omega

/-- A record which is not complete does not count. -/
theorem recordsLength_of_incomplete (h : ¬(ofBE16 n₁ n₀).toNat ≤ rest.length) :
    recordsLength (t₁ :: t₀ :: n₁ :: n₀ :: rest) = 0 := by
  rw [recordsLength, parseRecords, if_neg h]
  rfl

end CppCore.Lib
