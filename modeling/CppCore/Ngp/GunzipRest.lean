import CppCore.Ngp.FlagsChain
import CppCore.Ngp.GzipHeader

/-!
# Gzipped blocks from anywhere

When the flags word says so the constructor unpacks the rest of the buffer into memory it
reserves for as many bytes as the stream announces, and goes on with that many bytes.  The
announced length is a signed number from the peer, the helpers report failure by negative
numbers, and `inflate` may produce less than was announced.

## Main definitions

* `flagsEnd` — where the gzipped rest of a buffer starts.
* `NParamBlock.reserveSize` — the size that is passed to `reserve`.
* `NParamBlock.RejectsCleanly` — memory is reserved within the limit, nothing is thrown, and
  only bytes which were unpacked become params.
* `NParamBlock.HonestLength` — the announced length is not negative, and the records do not need
  more bytes than were unpacked.
* `NParamBlock.rejectsCleanly_iff` — the buffers that are rejected cleanly.
-/

namespace CppCore.Ngp

open Lib

/-! ## What the helpers answer -/

/-- Unpacking ends with a number for every buffer; it is not negative only behind a header that
was accepted, and what was put into the output fits its length. -/
theorem Zlib.gunzip_spec (z : Zlib) {rest : List UInt8} (hrest : rest.length + 4 < 2 ^ 31) {n : ℕ}
    (hn : n < 2 ^ 32) :
    ∃ r out, z.gunzip n rest rest.length = .ok (r, out) ∧ out.length ≤ n ∧
      (0 ≤ r → ∃ headerLen, Zlib.check_header rest rest.length = .ok headerLen ∧
        0 < headerLen) := by
  obtain ⟨headerLen, hcheck, hrange⟩ := Zlib.check_header_spec hrest
  have hout : ((n : ℤ) % 2 ^ 32).toNat = n := by omega
  by_cases hneg : headerLen < 0
  · refine ⟨-1, [], ?_, Nat.zero_le n, fun h => absurd h (by decide)⟩
    rw [Zlib.gunzip, hcheck, Exec.ok_bind, if_pos hneg]
  · obtain ⟨input, hslice⟩ : ∃ input,
        slice rest headerLen.toNat ((rest.length : ℤ) - headerLen).toNat = .ok input :=
      ⟨_, slice_eq_ok.mpr ⟨by omega, rfl⟩⟩
    have hpos : 0 < headerLen := by omega
    rw [Zlib.gunzip, hcheck, Exec.ok_bind, if_neg hneg, hslice, Exec.ok_bind, hout]
    cases hinflate : z.inflate n input with
    | none => exact ⟨-1, [], rfl, Nat.zero_le n, fun _ => ⟨headerLen, rfl, hpos⟩⟩
    | some result =>
      have hfits := z.length_inflate n input result hinflate
      by_cases hall : headerLen + result.2 + 8 = rest.length
      · exact ⟨rest.length, result.1, by simp only [if_pos hall], hfits,
          fun _ => ⟨headerLen, rfl, hpos⟩⟩
      · exact ⟨-1, result.1, by simp only [if_neg hall], hfits, fun _ => ⟨headerLen, rfl, hpos⟩⟩

/-- No build accepts a header by returning zero. -/
theorem GunzipUtil.ofZlib_check_header (z : Option Zlib) {rest : List UInt8}
    (hrest : rest.length + 4 < 2 ^ 31) :
    ∃ r, (ofZlib z).check_header rest rest.length = .ok r ∧ r ≠ 0 := by
  cases z with
  | none => exact ⟨-1, rfl, by decide⟩
  | some z =>
    obtain ⟨r, hcheck, hrange⟩ := Zlib.check_header_spec hrest
    exact ⟨r, hcheck, by omega⟩

theorem GunzipUtil.ofZlib_gunzip (z : Option Zlib) {rest : List UInt8}
    (hrest : rest.length + 4 < 2 ^ 31) {n : ℕ} (hn : n < 2 ^ 32) :
    ∃ r out, (ofZlib z).gunzip n rest rest.length = .ok (r, out) ∧ out.length ≤ n ∧
      (0 ≤ r → ∃ headerLen,
        (ofZlib z).check_header rest rest.length = .ok headerLen ∧ 0 < headerLen) := by
  cases z with
  | none => exact ⟨-1, [], rfl, Nat.zero_le n, fun h => absurd h (by decide)⟩
  | some z => exact z.gunzip_spec hrest hn

/-! ## Where the rest begins -/

/-- Where the constructor takes the flags words of a buffer to end. -/
def flagsEnd (bytes : List UInt8) : ℕ :=
  if chainLength bytes < (flagWords bytes).length ∧ chainLength bytes < 2 ^ 14 then
    4 * (chainLength bytes + 1)
  else
    4 * (flagWords bytes).length

theorem flagsEnd_le (bytes : List UInt8) : flagsEnd bytes ≤ bytes.length := by
  have hlength := length_flagWords bytes
  rw [flagsEnd]
  split <;> omega

/-- The flags words are four bytes of the buffer at least, which its rest does not have. -/
theorem length_rest_lt {bytes : List UInt8} (hbound : bytes.length < 2 ^ 31) {flags : UInt32}
    (hflags : (flagWords bytes).head? = some flags) :
    (bytes.drop (flagsEnd bytes)).length + 4 < 2 ^ 31 := by
  have hlength := length_flagWords bytes
  have hwords : 0 < (flagWords bytes).length :=
    List.length_pos_of_mem (List.mem_of_head? hflags)
  have hfour : 4 ≤ flagsEnd bytes := by
    rw [flagsEnd]
    split <;> omega
  rw [List.length_drop]
  omega

/-- A single flags word. -/
theorem flagsEnd_of_last {bytes : List UInt8} {flags : UInt32}
    (hflags : (flagWords bytes).head? = some flags) (hlast : flags &&& 0x80000000 = 0) :
    flagsEnd bytes = 4 := by
  obtain ⟨words, hwords⟩ := List.head?_eq_some_iff.mp hflags
  have hchain : chainLength bytes = 0 := by
    simp [chainLength, hwords, hlast]
  rw [flagsEnd, hchain, if_pos (by simp [hwords])]

namespace NParamBlock

theorem skipFlags_eq {bytes : List UInt8} (hbound : bytes.length < 2 ^ 31) {flags : UInt32}
    (hflags : (flagWords bytes).head? = some flags) :
    skipFlags bytes bytes.length (bytes.length / 4 + 1) flags 4 = .ok (flagsEnd bytes) := by
  have hle := chainLength_le bytes
  by_cases hclosed : chainLength bytes < (flagWords bytes).length ∧ chainLength bytes < 2 ^ 14
  · rw [skipFlags_closed hbound hflags hclosed.1 hclosed.2, flagsEnd, if_pos hclosed]
  · rw [skipFlags_open hbound hflags (by omega), flagsEnd, if_neg hclosed]

/-! ## Parsing more than there is -/

/-- Reading records from `n` bytes of which the first ones are `produced` does not get to the
others: at most three bytes follow the complete records, or the next record is longer than what
follows. -/
def EndsWithin (produced : List UInt8) (n : ℕ) : Prop :=
  n < recordsLength produced + 4 ∨
    ∃ t₁ t₀ n₁ n₀ tail, produced.drop (recordsLength produced) = t₁ :: t₀ :: n₁ :: n₀ :: tail ∧
      n < recordsLength produced + 4 + (ofBE16 n₁ n₀).toNat

variable {t₁ t₀ n₁ n₀ : UInt8} {rest : List UInt8} {n : ℕ}

private theorem endsWithin_of_complete (h : (ofBE16 n₁ n₀).toNat ≤ rest.length)
    (hn : 4 + (ofBE16 n₁ n₀).toNat ≤ n) :
    EndsWithin (t₁ :: t₀ :: n₁ :: n₀ :: rest) n ↔
      EndsWithin (rest.drop (ofBE16 n₁ n₀).toNat) (n - (4 + (ofBE16 n₁ n₀).toNat)) := by
  have hdrop : (t₁ :: t₀ :: n₁ :: n₀ :: rest).drop
      (4 + (ofBE16 n₁ n₀).toNat + recordsLength (rest.drop (ofBE16 n₁ n₀).toNat)) =
        (rest.drop (ofBE16 n₁ n₀).toNat).drop
          (recordsLength (rest.drop (ofBE16 n₁ n₀).toNat)) := by
    rw [Nat.add_assoc, ← List.drop_drop, ← List.drop_drop]
    rfl
  rw [EndsWithin]
  rw [recordsLength_of_complete h, hdrop]
  constructor
  · rintro (hshort | ⟨u₁, u₀, m₁, m₀, tail, htail, hlong⟩)
    · exact .inl (by omega)
    · exact .inr ⟨u₁, u₀, m₁, m₀, tail, htail, by omega⟩
  · rintro (hshort | ⟨u₁, u₀, m₁, m₀, tail, htail, hlong⟩)
    · exact .inl (by omega)
    · exact .inr ⟨u₁, u₀, m₁, m₀, tail, htail, by omega⟩

private theorem endsWithin_of_incomplete (h : ¬(ofBE16 n₁ n₀).toNat ≤ rest.length) :
    EndsWithin (t₁ :: t₀ :: n₁ :: n₀ :: rest) n ↔ n < 4 + (ofBE16 n₁ n₀).toNat := by
  rw [EndsWithin]
  rw [recordsLength_of_incomplete h, List.drop_zero]
  constructor
  · rintro (hshort | ⟨u₁, u₀, m₁, m₀, tail, htail, hlong⟩)
    · omega
    · obtain ⟨rfl, rfl, rfl, rfl, rfl⟩ : t₁ = u₁ ∧ t₀ = u₀ ∧ n₁ = m₁ ∧ n₀ = m₀ ∧ rest = tail := by
        simpa using htail
      omega
  · intro hlt
    exact .inr ⟨t₁, t₀, n₁, n₀, rest, rfl, by omega⟩

/-- When everything was produced nothing else is read. -/
theorem endsWithin_length (produced : List UInt8) : EndsWithin produced produced.length := by
  induction produced using parseRecords.induct with
  | case1 t₁ t₀ n₁ n₀ rest hle ih =>
    have hlen : (t₁ :: t₀ :: n₁ :: n₀ :: rest).length - (4 + (ofBE16 n₁ n₀).toNat) =
        (rest.drop (ofBE16 n₁ n₀).toNat).length := by
      simp only [List.length_cons, List.length_drop]
      omega
    rw [endsWithin_of_complete hle (by simp only [List.length_cons]; omega), hlen]
    exact ih
  | case2 t₁ t₀ n₁ n₀ rest hgt =>
    rw [endsWithin_of_incomplete hgt]
    simp only [List.length_cons]
    omega
  | case3 produced hshort =>
    refine .inl (Nat.lt_of_not_le fun hle => ?_)
    obtain ⟨t₁, t₀, n₁, n₀, rest, rfl⟩ := exists_eq_header (by omega : 4 ≤ produced.length)
    exact hshort t₁ t₀ n₁ n₀ rest rfl

/-- Where the header of a record is not complete in memory the loop reads past the memory. -/
private theorem readRecords_no_header {mem : List UInt8} {len : ℕ} (hbound : len < 2 ^ 31)
    {pos : ℕ} (hmore : pos + 4 ≤ len) (hshort : mem.length < pos + 4) (fuel : ℕ)
    (block parsed : NParamBlock) :
    readRecords (some mem) len (fuel + 1) pos block ≠ .ok parsed := by
  intro h
  rw [readRecords, add32_of_lt (by omega), if_pos hmore] at h
  simp only [deref, Exec.ok_bind, Exec.bind_eq_ok, add32_of_lt (show pos + 2 < 2 ^ 32 by omega),
    byteAt_eq_ok] at h
  obtain ⟨-, -, -, -, -, -, b, hb, -⟩ := h
  have := (List.getElem?_eq_some_iff.mp hb).1
  omega

/-- One turn of the loop where the header of a record is there. -/
private theorem readRecords_at_header {mem : List UInt8} {len : ℕ} (hbound : len < 2 ^ 31)
    {pos : ℕ} (hrest : mem.drop pos = t₁ :: t₀ :: n₁ :: n₀ :: rest) (hmore : pos + 4 ≤ len)
    (fuel : ℕ) (block : NParamBlock) :
    readRecords (some mem) len (fuel + 1) pos block =
      if pos + 4 + (ofBE16 n₁ n₀).toNat ≤ len then
        if (ofBE16 n₁ n₀).toNat ≤ rest.length then
          readRecords (some mem) len fuel (pos + 4 + (ofBE16 n₁ n₀).toNat)
            (block.addParam (ofRecord (ofBE16 t₁ t₀, rest.take (ofBE16 n₁ n₀).toNat)))
        else
          .error .outOfBounds
      else
        readRecords (some mem) len fuel len { block with m_valid := false } := by
  have hlength := congrArg List.length hrest
  simp only [List.length_drop, List.length_cons] at hlength
  have hbytes : [t₁, t₀, n₁, n₀] <+: mem.drop pos := ⟨rest, hrest.symm⟩
  simp only [cons_prefix_drop, ← byteAt_eq_ok] at hbytes
  obtain ⟨h₁, h₂, h₃, h₄, -⟩ := hbytes
  have hn := (ofBE16 n₁ n₀).toNat_lt
  have hdrop : rest = mem.drop (pos + 2 + 2) := by
    rw [Nat.add_assoc, ← List.drop_drop, hrest]
    rfl
  rw [readRecords, add32_of_lt (show pos + 4 < 2 ^ 32 by omega), if_pos hmore]
  simp only [deref, Exec.ok_bind, h₁, h₂, add32_of_lt (show pos + 2 < 2 ^ 32 by omega), h₃, h₄,
    add32_of_lt (show pos + 2 + 2 < 2 ^ 32 by omega),
    add32_of_lt (show pos + 2 + 2 + (ofBE16 n₁ n₀).toNat < 2 ^ 32 by omega)]
  by_cases hin : pos + 4 + (ofBE16 n₁ n₀).toNat ≤ len
  · rw [if_pos hin, if_pos hin]
    by_cases hfit : (ofBE16 n₁ n₀).toNat ≤ rest.length
    · rw [if_pos hfit, slice, if_pos (by omega), Exec.ok_bind, ← hdrop]
      rfl
    · rw [if_neg hfit, slice, if_neg (by omega), Exec.error_bind]
  · rw [if_neg hin, if_neg hin]

/-- The last turn of the loop. -/
private theorem readRecords_at_end (mem : List UInt8) {len : ℕ} (hbound : len < 2 ^ 31) {pos : ℕ}
    (hpos : pos ≤ len) (hend : len < pos + 4) (fuel : ℕ) (block : NParamBlock) :
    readRecords (some mem) len (fuel + 1) pos block =
      .ok (block.addRecords [] (decide (0 = len - pos))) := by
  rw [readRecords, add32_of_lt (by omega), if_neg (by omega)]
  by_cases heq : pos = len
  · simp [heq]
  · rw [if_pos heq, decide_eq_false (by omega), addRecords_nil_false]

/-- The turn at a record that is not complete in memory: the last one, or none. -/
private theorem readRecords_at_incomplete {mem : List UInt8} {len : ℕ} (hbound : len < 2 ^ 31)
    {pos : ℕ} (hrest : mem.drop pos = t₁ :: t₀ :: n₁ :: n₀ :: rest) (hmore : pos + 4 ≤ len)
    (hfit : ¬(ofBE16 n₁ n₀).toNat ≤ rest.length) (fuel : ℕ) (block parsed : NParamBlock) :
    readRecords (some mem) len (fuel + 2) pos block = .ok parsed ↔
      EndsWithin (mem.drop pos) (len - pos) ∧
        parsed = block.addRecords (parseRecords (mem.drop pos)).1
          (decide (recordsLength (mem.drop pos) = len - pos)) := by
  have hparse : parseRecords (t₁ :: t₀ :: n₁ :: n₀ :: rest) = ([], false) := by
    rw [parseRecords, if_neg hfit]
  rw [readRecords_at_header hbound hrest hmore, hrest, endsWithin_of_incomplete hfit,
    recordsLength_of_incomplete hfit, hparse]
  by_cases hin : pos + 4 + (ofBE16 n₁ n₀).toNat ≤ len
  · rw [if_pos hin, if_neg hfit]
    exact iff_of_false (by simp) (by omega)
  · have hincomplete : 0 ≠ len - pos := by omega
    rw [if_neg hin, readRecords_at_end mem hbound le_rfl (by omega), Nat.sub_self,
      decide_eq_false hincomplete, decide_eq_true rfl, addRecords_nil_true,
      addRecords_nil_false, Except.ok.injEq, eq_comm]
    exact (and_iff_right (by omega)).symm

/-- Where the header of a record is not complete in memory there is no result. -/
private theorem not_endsWithin_of_no_header {mem : List UInt8} {len pos : ℕ}
    (hpos : pos ≤ mem.length) (hmore : pos + 4 ≤ len) (hshort : mem.length < pos + 4) :
    ¬EndsWithin (mem.drop pos) (len - pos) := by
  have hdrop : (mem.drop pos).length < 4 := by
    rw [List.length_drop]
    omega
  rintro (hlt | ⟨t₁, t₀, n₁, n₀, tail, htail, -⟩)
  · rw [recordsLength_of_length_lt hdrop] at hlt
    omega
  · rw [recordsLength_of_length_lt hdrop, List.drop_zero] at htail
    simp only [htail, List.length_cons] at hdrop
    omega

/-- **The record loop on memory of which only the first bytes were written** has a result exactly
when it does not get to the others, and then it is that of `parseRecords` on those written. -/
theorem readRecords_eq_ok {mem : List UInt8} {len : ℕ} (hlen : mem.length ≤ len)
    (hbound : len < 2 ^ 31) {fuel pos : ℕ} (hpos : pos ≤ mem.length)
    (hfuel : (len - pos) / 4 + 2 ≤ fuel) (block parsed : NParamBlock) :
    readRecords (some mem) len fuel pos block = .ok parsed ↔
      EndsWithin (mem.drop pos) (len - pos) ∧
        parsed = block.addRecords (parseRecords (mem.drop pos)).1
          (decide (recordsLength (mem.drop pos) = len - pos)) := by
  induction fuel generalizing pos block with
  | zero => omega
  | succ fuel ih =>
    by_cases hend : len < pos + 4
    · have hshort : (mem.drop pos).length < 4 := by
        rw [List.length_drop]
        omega
      have hwithin : EndsWithin (mem.drop pos) (len - pos) := .inl (by omega)
      rw [readRecords_at_end mem hbound (by omega) hend, parseRecords_of_length_lt hshort,
        recordsLength_of_length_lt hshort, Except.ok.injEq, eq_comm]
      exact (and_iff_right hwithin).symm
    by_cases hshort : mem.length < pos + 4
    · exact iff_of_false (readRecords_no_header hbound (by omega) hshort fuel block parsed)
        fun h => not_endsWithin_of_no_header hpos (by omega) hshort h.1
    · have hlength : (mem.drop pos).length = mem.length - pos := List.length_drop
      obtain ⟨t₁, t₀, n₁, n₀, rest, hrest⟩ :=
        exists_eq_header (by omega : 4 ≤ (mem.drop pos).length)
      rw [hrest] at hlength
      simp only [List.length_cons] at hlength
      by_cases hfit : (ofBE16 n₁ n₀).toNat ≤ rest.length
      · rw [readRecords_at_header hbound hrest (by omega), hrest]
        have hnext :
            mem.drop (pos + 4 + (ofBE16 n₁ n₀).toNat) = rest.drop (ofBE16 n₁ n₀).toNat := by
          rw [← List.drop_drop, ← List.drop_drop, hrest]
          rfl
        rw [if_pos (by omega), if_pos hfit, ih (by omega) (by omega), hnext, parseRecords,
          if_pos hfit, recordsLength_of_complete hfit, endsWithin_of_complete hfit (by omega)]
        have hsub : len - (pos + 4 + (ofBE16 n₁ n₀).toNat) =
            len - pos - (4 + (ofBE16 n₁ n₀).toNat) := by omega
        have hall : recordsLength (rest.drop (ofBE16 n₁ n₀).toNat) =
              len - (pos + 4 + (ofBE16 n₁ n₀).toNat) ↔
            4 + (ofBE16 n₁ n₀).toNat + recordsLength (rest.drop (ofBE16 n₁ n₀).toNat) =
              len - pos := by omega
        rw [decide_eq_decide.mpr hall, hsub]
        rfl
      · obtain ⟨fuel, rfl⟩ : ∃ k, fuel = k + 1 := ⟨fuel - 1, by omega⟩
        exact readRecords_at_incomplete hbound hrest (by omega) hfit fuel block parsed

/-! ## The gzipped rest -/

/-- The size the constructor passes to `reserve` for a gzipped rest, if it gets there. -/
def reserveSize (zip : GunzipUtil) (buff : List UInt8) (len pos : ℕ) : Exec (Option ℕ) := do
  let header ← zip.check_header (buff.drop pos) (int32 (sub32 len pos))
  if header ≠ 0 then
    let realLength ← zip.origLength (buff.drop pos) (int32 (sub32 len pos))
    if realLength ≤ maxMsgSize then .ok (some (realLength % 2 ^ 32).toNat) else .ok none
  else
    .ok none

/-- Every stage succeeds on a gzipped rest, which announces `n` bytes and of which `produced` are
unpacked. -/
def Unpacks (zip : GunzipUtil) (rest : List UInt8) (n : ℕ) (produced : List UInt8) : Prop :=
  (∃ header, zip.check_header rest rest.length = .ok header ∧ 0 < header) ∧
    zip.origLength rest rest.length = .ok (n : ℤ) ∧ n ≤ maxMsgSize ∧
    ∃ gzRes, zip.gunzip n rest rest.length = .ok (gzRes, produced) ∧ 0 ≤ gzRes

/-- A rest is unpacked in one way. -/
theorem Unpacks.unique {zip : GunzipUtil} {rest : List UInt8} {n n' : ℕ}
    {produced produced' : List UInt8} (h : Unpacks zip rest n produced)
    (h' : Unpacks zip rest n' produced') : n = n' ∧ produced = produced' := by
  obtain ⟨-, horig, -, gzRes, hgunzip, -⟩ := h
  obtain ⟨-, horig', -, gzRes', hgunzip', -⟩ := h'
  obtain rfl : n = n' := by
    have := Exec.unique horig horig'
    omega
  exact ⟨rfl, congrArg Prod.snd (Exec.unique hgunzip hgunzip')⟩

/-- What has to hold for a gzipped buffer from anywhere. -/
structure RejectsCleanly (zip : GunzipUtil) (bytes : List UInt8) (protVer : UInt8) : Prop where
  /-- The size passed to `reserve` is within the limit. -/
  reserved : ∀ size,
    reserveSize zip bytes bytes.length (flagsEnd bytes) = .ok (some size) → size ≤ maxMsgSize
  /-- There is a block: no exception is raised, and no byte is read that was not unpacked. -/
  returned : ∃ block, ofBuffer zip (some bytes) bytes.length protVer = .ok block
  /-- If a stage fails the block is not valid and has no params. -/
  failed : ∀ block, ofBuffer zip (some bytes) bytes.length protVer = .ok block →
    (¬∃ n produced, Unpacks zip (bytes.drop (flagsEnd bytes)) n produced) →
      block.getValid = false ∧ block.m_params = OrderedMultiset.empty
  /-- If none fails the params are records at the front of what was unpacked. -/
  parsed : ∀ block, ofBuffer zip (some bytes) bytes.length protVer = .ok block →
    ∀ n produced, Unpacks zip (bytes.drop (flagsEnd bytes)) n produced →
      ∃ rs : List Record, encodeRecords rs <+: produced ∧
        block.m_params = OrderedMultiset.empty.insertAll (rs.map ofRecord)

/-- The rest announces a length that is not negative, and if it can be unpacked reading records
from as many bytes does not get past those that were unpacked. -/
def HonestLength (z : Option Zlib) (rest : List UInt8) : Prop :=
  ∃ n, GunzipUtil.announcedLength z rest = some n ∧
    ∀ produced, Unpacks (GunzipUtil.ofZlib z) rest n produced → EndsWithin produced n

section
variable {bytes : List UInt8} {flags : UInt32}

/-- With the gzip bit set, what is read are the params of the unpacked rest. -/
theorem ofBuffer_gzip (zip : GunzipUtil) (hbound : bytes.length < 2 ^ 31) {protVer : UInt8}
    (hver : 0xc ≤ protVer) (hflags : (flagWords bytes).head? = some flags)
    (hgzip : flags &&& 0x1 ≠ 0) :
    ofBuffer zip (some bytes) bytes.length protVer = (do
      let (mem, len, pos, valid) ← gunzipRest zip bytes bytes.length (flagsEnd bytes)
      readRecords (some mem) len (len / 4 + 2) pos ⟨OrderedMultiset.empty, valid, flags⟩) := by
  rw [ofBuffer, if_pos ⟨hver, four_le_of_flags hflags⟩]
  simp only [deref, Exec.ok_bind, getUint32_flags hflags, skipFlags_eq hbound hflags]
  rw [if_pos hgzip]

/-- The length the helpers are given. -/
private theorem int32_rest (hbound : bytes.length < 2 ^ 31) :
    int32 (sub32 bytes.length (flagsEnd bytes)) = (bytes.drop (flagsEnd bytes)).length := by
  have hend := flagsEnd_le bytes
  rw [sub32_of_le hend (by omega), List.length_drop, int32, Nat.mod_eq_of_lt (by omega),
    if_pos (by omega)]

/-- What is done with the rest, once the helpers have answered. -/
theorem gunzipRest_eq (zip : GunzipUtil) (hbound : bytes.length < 2 ^ 31) {rest : List UInt8}
    (hrest : bytes.drop (flagsEnd bytes) = rest) {header n : ℤ}
    (hcheck : zip.check_header rest rest.length = .ok header) (hheader : header ≠ 0)
    (horig : zip.origLength rest rest.length = .ok n) :
    gunzipRest zip bytes bytes.length (flagsEnd bytes) =
      if n ≤ maxMsgSize then
        if (vectorMaxSize : ℤ) < n % 2 ^ 32 then
          .error .lengthError
        else do
          let (gzRes, gzBuff) ← zip.gunzip n rest rest.length
          if 0 ≤ gzRes then .ok (gzBuff, n.toNat, 0, true)
          else .ok (bytes, bytes.length, bytes.length, false)
      else
        .ok (bytes, bytes.length, bytes.length, false) := by
  rw [gunzipRest, int32_rest hbound, hrest, hcheck, Exec.ok_bind, if_pos hheader, horig,
    Exec.ok_bind]

private theorem reserveSize_eq (zip : GunzipUtil) (hbound : bytes.length < 2 ^ 31) {header n : ℤ}
    (hcheck : zip.check_header (bytes.drop (flagsEnd bytes))
      (bytes.drop (flagsEnd bytes)).length = .ok header) (hheader : header ≠ 0)
    (horig : zip.origLength (bytes.drop (flagsEnd bytes))
      (bytes.drop (flagsEnd bytes)).length = .ok n) :
    reserveSize zip bytes bytes.length (flagsEnd bytes) =
      if n ≤ maxMsgSize then .ok (some (n % 2 ^ 32).toNat) else .ok none := by
  rw [reserveSize, int32_rest hbound, hcheck, Exec.ok_bind, if_pos hheader, horig, Exec.ok_bind]

/-- A block that is rejected has been read to the end. -/
theorem readRecords_rejected (hbound : bytes.length < 2 ^ 31) :
    readRecords (some bytes) bytes.length (bytes.length / 4 + 2) bytes.length
        ⟨OrderedMultiset.empty, false, flags⟩ = .ok ⟨OrderedMultiset.empty, false, flags⟩ := by
  rw [readRecords_at_end bytes hbound le_rfl (by omega), Nat.sub_self, decide_eq_true rfl,
    addRecords_nil_true]

/-- A rest on which a stage fails, within the limit for the memory, is rejected cleanly. -/
private theorem rejectsCleanly_of_rejected {zip : GunzipUtil} {protVer : UInt8}
    (hblock : ofBuffer zip (some bytes) bytes.length protVer =
      .ok ⟨OrderedMultiset.empty, false, flags⟩)
    (hreserve : ∀ size,
      reserveSize zip bytes bytes.length (flagsEnd bytes) = .ok (some size) → size ≤ maxMsgSize)
    (hfail : ∀ n produced, ¬Unpacks zip (bytes.drop (flagsEnd bytes)) n produced) :
    RejectsCleanly zip bytes protVer where
  reserved := hreserve
  returned := ⟨_, hblock⟩
  failed := by
    intro block hof _
    obtain rfl := Exec.unique hof hblock
    exact ⟨rfl, rfl⟩
  parsed := by
    intro block _ n produced hunpacks
    exact absurd hunpacks (hfail n produced)

/-- A rest that is unpacked, within the limit for the memory, is parsed cleanly exactly when
reading stays within what was unpacked. -/
private theorem rejectsCleanly_of_unpacks {zip : GunzipUtil} {protVer : UInt8} {n : ℕ}
    {produced : List UInt8} (hn : n ≤ maxMsgSize) (hfits : produced.length ≤ n)
    (hblock : ofBuffer zip (some bytes) bytes.length protVer =
      readRecords (some produced) n (n / 4 + 2) 0 ⟨OrderedMultiset.empty, true, flags⟩)
    (hreserve : reserveSize zip bytes bytes.length (flagsEnd bytes) = .ok (some n))
    (hunpacks : Unpacks zip (bytes.drop (flagsEnd bytes)) n produced) :
    RejectsCleanly zip bytes protVer ↔ EndsWithin produced n := by
  have hbound : n < 2 ^ 31 := by
    rw [maxMsgSize] at hn
    omega
  have hread : ∀ block, ofBuffer zip (some bytes) bytes.length protVer = .ok block ↔
      EndsWithin produced n ∧ block = addRecords ⟨OrderedMultiset.empty, true, flags⟩
        (parseRecords produced).1 (decide (recordsLength produced = n)) := by
    intro block
    rw [hblock]
    exact readRecords_eq_ok hfits hbound (Nat.zero_le _) le_rfl _ _
  constructor
  · intro h
    obtain ⟨block, hof⟩ := h.returned
    exact ((hread block).mp hof).1
  · intro hwithin
    refine ⟨?_, ⟨_, (hread _).mpr ⟨hwithin, rfl⟩⟩, ?_, ?_⟩
    · intro size hsize
      obtain rfl := Option.some.inj (Exec.unique hreserve hsize)
      exact hn
    · intro block _ hnone
      exact absurd ⟨n, produced, hunpacks⟩ hnone
    · intro block hof n' produced' hunpacks'
      obtain ⟨rfl, rfl⟩ := hunpacks.unique hunpacks'
      obtain ⟨-, rest, hprefix, -⟩ := parseRecords_spec produced
      exact ⟨(parseRecords produced).1, ⟨rest, hprefix.symm⟩,
        congrArg m_params ((hread block).mp hof).2⟩

end

section
variable (z : Option Zlib) {bytes : List UInt8} {flags : UInt32} {protVer : UInt8} {n : ℕ}

/-- The rest announces more than the limit. -/
private theorem rejectsCleanly_of_large (hbound : bytes.length < 2 ^ 31) (hver : 0xc ≤ protVer)
    (hflags : (flagWords bytes).head? = some flags) (hgzip : flags &&& 0x1 ≠ 0)
    (horig : (GunzipUtil.ofZlib z).origLength (bytes.drop (flagsEnd bytes))
      (bytes.drop (flagsEnd bytes)).length = .ok (n : ℤ)) (hlarge : ¬n ≤ maxMsgSize) :
    RejectsCleanly (GunzipUtil.ofZlib z) bytes protVer ∧
      ∀ produced, ¬Unpacks (GunzipUtil.ofZlib z) (bytes.drop (flagsEnd bytes)) n produced := by
  obtain ⟨header, hcheck, hheader⟩ :=
    GunzipUtil.ofZlib_check_header z (length_rest_lt hbound hflags)
  have hfail : ∀ n' produced,
      ¬Unpacks (GunzipUtil.ofZlib z) (bytes.drop (flagsEnd bytes)) n' produced := by
    rintro n' produced ⟨-, horig', hmax, -⟩
    have heq := Exec.unique horig horig'
    omega
  have hblock := ofBuffer_gzip (GunzipUtil.ofZlib z) hbound hver hflags hgzip
  rw [gunzipRest_eq _ hbound rfl hcheck hheader horig, if_neg (by omega), Exec.ok_bind] at hblock
  replace hblock := hblock.trans (readRecords_rejected hbound)
  refine ⟨rejectsCleanly_of_rejected hblock ?_ hfail, hfail n⟩
  intro size hsize
  rw [reserveSize_eq _ hbound hcheck hheader horig, if_neg (by omega)] at hsize
  cases hsize

/-- When `gunzip` reports a failure nothing is unpacked. -/
private theorem not_unpacks_of_failed {zip : GunzipUtil} {rest : List UInt8} {n : ℕ} {gzRes : ℤ}
    {produced : List UInt8} (horig : zip.origLength rest rest.length = .ok (n : ℤ))
    (hgunzip : zip.gunzip n rest rest.length = .ok (gzRes, produced)) (hres : ¬0 ≤ gzRes) :
    ∀ n' produced', ¬Unpacks zip rest n' produced' := by
  intro n' produced' hunpacks
  obtain ⟨-, horig', -, gzRes', hgunzip', hres'⟩ := hunpacks
  have heq := Exec.unique horig horig'
  rw [← heq, hgunzip] at hgunzip'
  have hsame : gzRes = gzRes' := congrArg Prod.fst (Except.ok.inj hgunzip')
  omega

/-- The rest announces no more than the limit: whether it is unpacked decides. -/
private theorem rejectsCleanly_of_small (hbound : bytes.length < 2 ^ 31) (hver : 0xc ≤ protVer)
    (hflags : (flagWords bytes).head? = some flags) (hgzip : flags &&& 0x1 ≠ 0)
    (horig : (GunzipUtil.ofZlib z).origLength (bytes.drop (flagsEnd bytes))
      (bytes.drop (flagsEnd bytes)).length = .ok (n : ℤ)) (hmax : n ≤ maxMsgSize) :
    RejectsCleanly (GunzipUtil.ofZlib z) bytes protVer ↔
      ∀ produced, Unpacks (GunzipUtil.ofZlib z) (bytes.drop (flagsEnd bytes)) n produced →
        EndsWithin produced n := by
  have hbig : n < 2 ^ 31 := by
    rw [maxMsgSize] at hmax
    omega
  have hmod : (n : ℤ) % 2 ^ 32 = n := by omega
  have hroom : ¬(vectorMaxSize : ℤ) < n := by
    simp only [vectorMaxSize, maxObject]
    omega
  obtain ⟨header, hcheck, hheader⟩ :=
    GunzipUtil.ofZlib_check_header z (length_rest_lt hbound hflags)
  obtain ⟨gzRes, produced, hgunzip, hfits, hgood⟩ :=
    GunzipUtil.ofZlib_gunzip z (length_rest_lt hbound hflags) (show n < 2 ^ 32 by omega)
  have hreserve := reserveSize_eq _ hbound hcheck hheader horig
  have hblock := ofBuffer_gzip (GunzipUtil.ofZlib z) hbound hver hflags hgzip
  rw [if_pos (by omega), hmod, Int.toNat_natCast] at hreserve
  rw [gunzipRest_eq _ hbound rfl hcheck hheader horig, if_pos (by omega), hmod, if_neg hroom,
    hgunzip, Exec.ok_bind] at hblock
  by_cases hres : 0 ≤ gzRes
  · have hunpacks : Unpacks (GunzipUtil.ofZlib z) (bytes.drop (flagsEnd bytes)) n produced :=
      ⟨hgood hres, horig, hmax, gzRes, hgunzip, hres⟩
    simp only [if_pos hres, Int.toNat_natCast, Exec.ok_bind] at hblock
    rw [rejectsCleanly_of_unpacks hmax hfits hblock hreserve hunpacks]
    constructor
    · intro hwithin produced' hunpacks'
      rwa [← (hunpacks.unique hunpacks').2]
    · intro hwithin
      exact hwithin produced hunpacks
  · have hfail := not_unpacks_of_failed horig hgunzip hres
    simp only [if_neg hres, Exec.ok_bind] at hblock
    rw [readRecords_rejected hbound] at hblock
    refine iff_of_true (rejectsCleanly_of_rejected hblock ?_ hfail)
      fun produced' hunpacks => absurd hunpacks (hfail n produced')
    intro size hsize
    obtain rfl := Option.some.inj (Exec.unique hreserve hsize)
    exact hmax

/-- A rest that announces a negative length makes `reserve` throw. -/
private theorem not_rejectsCleanly_of_negative (hbound : bytes.length < 2 ^ 31)
    (hver : 0xc ≤ protVer) (hflags : (flagWords bytes).head? = some flags)
    (hgzip : flags &&& 0x1 ≠ 0) {n : ℤ}
    (horig : (GunzipUtil.ofZlib z).origLength (bytes.drop (flagsEnd bytes))
      (bytes.drop (flagsEnd bytes)).length = .ok n) (hneg : n < 0) (hlow : -2 ^ 31 ≤ n) :
    ¬RejectsCleanly (GunzipUtil.ofZlib z) bytes protVer := by
  obtain ⟨header, hcheck, hheader⟩ :=
    GunzipUtil.ofZlib_check_header z (length_rest_lt hbound hflags)
  have hhuge : (vectorMaxSize : ℤ) < n % 2 ^ 32 := by
    simp only [vectorMaxSize, maxObject]
    omega
  have hblock := ofBuffer_gzip (GunzipUtil.ofZlib z) hbound hver hflags hgzip
  rw [gunzipRest_eq _ hbound rfl hcheck hheader horig, if_pos (by omega), if_pos hhuge,
    Exec.error_bind] at hblock
  intro h
  obtain ⟨block, hof⟩ := h.returned
  cases hblock.symm.trans hof

end

/-- **A gzipped buffer is rejected cleanly exactly when the length it announces is not negative
and covers no records but those that were unpacked**: with a larger length than `inflate`
produces, reading may go on in memory nobody wrote, and a negative one makes `reserve` throw.
Without zlib it always throws. -/
theorem rejectsCleanly_iff (z : Option Zlib) {bytes : List UInt8} (hbound : bytes.length < 2 ^ 31)
    {protVer : UInt8} (hver : 0xc ≤ protVer) {flags : UInt32}
    (hflags : (flagWords bytes).head? = some flags) (hgzip : flags &&& 0x1 ≠ 0) :
    RejectsCleanly (GunzipUtil.ofZlib z) bytes protVer ↔
      HonestLength z (bytes.drop (flagsEnd bytes)) := by
  rcases GunzipUtil.ofZlib_origLength z (bytes.drop (flagsEnd bytes)) with
    ⟨n, hann, hn, horig⟩ | ⟨hann, n, horig, hneg, hlow⟩
  · have hhonest : HonestLength z (bytes.drop (flagsEnd bytes)) ↔ ∀ produced,
        Unpacks (GunzipUtil.ofZlib z) (bytes.drop (flagsEnd bytes)) n produced →
          EndsWithin produced n := by
      constructor
      · rintro ⟨n', hann', hwithin⟩
        obtain rfl := Option.some.inj (hann.symm.trans hann')
        exact hwithin
      · intro hwithin
        exact ⟨n, hann, hwithin⟩
    rw [hhonest]
    by_cases hmax : n ≤ maxMsgSize
    · exact rejectsCleanly_of_small z hbound hver hflags hgzip horig hmax
    · obtain ⟨hclean, hfail⟩ := rejectsCleanly_of_large z hbound hver hflags hgzip horig hmax
      exact iff_of_true hclean fun produced hunpacks => absurd hunpacks (hfail produced)
  · refine iff_of_false
      (not_rejectsCleanly_of_negative z hbound hver hflags hgzip horig hneg hlow) ?_
    rintro ⟨n', hann', -⟩
    cases hann.symm.trans hann'

/-- A flags word and the gzip stream of a param without payload, which announces `n` bytes. -/
def gzippedParam (n : UInt32) : List UInt8 :=
  [0, 0, 0, 1] ++ Zlib.gzipHeader ++ [0x63, 0x60, 0x67, 0x60, 0, 0] ++
    Zlib.trailer 0x240bc999 n.toNat

/-- zlib on this stream. -/
def zlibParam : Zlib := Zlib.single [0, 7, 0, 0] [0x63, 0x60, 0x67, 0x60, 0, 0] 0x240bc999

/-- The stream of a param that announces what it holds. -/
theorem rejectsCleanly_gzippedParam :
    RejectsCleanly (GunzipUtil.ofZlib (some zlibParam)) (gzippedParam 4) 0xc := by
  refine (rejectsCleanly_iff (some zlibParam) (by decide) (by decide)
    (by decide : (flagWords (gzippedParam 4)).head? = some 1) (by decide)).mpr ?_
  refine ⟨4, by decide, fun produced hunpacks => ?_⟩
  obtain ⟨-, -, -, gzRes, hgunzip, -⟩ := hunpacks
  have hval : (GunzipUtil.ofZlib (some zlibParam)).gunzip 4
      ((gzippedParam 4).drop (flagsEnd (gzippedParam 4))) 24 = .ok (24, [0, 7, 0, 0]) := by decide
  obtain rfl : [0, 7, 0, 0] = produced :=
    congrArg Prod.snd (Exec.unique hval hgunzip)
  exact endsWithin_length [0, 7, 0, 0]

/-- Without zlib every gzipped block makes the constructor throw, with zlib one that announces a
negative length; and where fewer bytes were compressed than announced, the constructor reads
memory nobody wrote. -/
theorem not_rejectsCleanly_announced :
    ¬RejectsCleanly (GunzipUtil.ofZlib none) (gzippedParam 4) 0xc ∧
      ¬RejectsCleanly (GunzipUtil.ofZlib (some zlibParam)) (gzippedParam 0x80000000) 0xc ∧
      ¬RejectsCleanly (GunzipUtil.ofZlib (some zlibParam)) (gzippedParam 8) 0xc := by
  have hstub : ofBuffer (GunzipUtil.ofZlib none) (some (gzippedParam 4))
      (gzippedParam 4).length 0xc = .error .lengthError := by decide
  have hnegative : ofBuffer (GunzipUtil.ofZlib (some zlibParam)) (some (gzippedParam 0x80000000))
      (gzippedParam 0x80000000).length 0xc = .error .lengthError := by decide
  have hshort : ofBuffer (GunzipUtil.ofZlib (some zlibParam)) (some (gzippedParam 8))
      (gzippedParam 8).length 0xc = .error .outOfBounds := by decide
  refine ⟨fun h => ?_, fun h => ?_, fun h => ?_⟩
  · obtain ⟨block, hblock⟩ := h.returned
    cases hstub.symm.trans hblock
  · obtain ⟨block, hblock⟩ := h.returned
    cases hnegative.symm.trans hblock
  · obtain ⟨block, hblock⟩ := h.returned
    cases hshort.symm.trans hblock

end NParamBlock

end CppCore.Ngp
