import CppCore.Lib.OrderedMultiset
import CppCore.Lib.Records
import CppCore.Ngp.NParam

/-!
# Param blocks

`NParamBlock` is a `std::multiset` of params with a validity flag and the flags word of the
wire format.  The constructor parses a byte buffer, `writeParams` appends the encoding to a
vector.  From protocol version `0xc` on a flags word stands in front of the params, which
announces that the sender can gunzip and that the rest is gzipped.

`m_find`, the scratch key of the lookups, has no value of its own and is left out, and so is
the optional `uncompressedSize`, which every caller leaves `NULL`.

## Main definitions

* `GunzipUtil` — the compression library a build links.
* `NParamBlock.ofBuffer`, `NParamBlock.writeParams` — the parser and the writer.
* `NParamBlock.ofBuffer_old` — the parser below version `0xc` is `parseRecords`.
* `NParamBlock.encoding` — what `writeParams` appends without compression.
* `NParamBlock.writeParamsInto` — the writer with the limit of the vector.
* `NParamBlock.ofBuffer_writeParams` — parsing what was written.
-/

namespace CppCore.Ngp

open Lib

/-! ## Compression -/

/-- `GunzipUtil` and `GzipUtil` of a build.  Buffers are what lies behind the pointer, lengths
are `int`; `gunzip` and `gzip` return their result and the bytes they put at the start of the
output buffer, whose length they are given first. -/
structure GunzipUtil where
  /-- `GunzipUtil::implemented`. -/
  implemented : Bool
  /-- `GunzipUtil::check_header`. -/
  check_header : List UInt8 → ℤ → Exec ℤ
  /-- `GunzipUtil::origLength`. -/
  origLength : List UInt8 → ℤ → Exec ℤ
  /-- `GunzipUtil::gunzip`. -/
  gunzip : ℤ → List UInt8 → ℤ → Exec (ℤ × List UInt8)
  /-- `GzipUtil::gzip`. -/
  gzip : ℤ → List UInt8 → ℤ → Exec (ℤ × List UInt8)

/-- The functions of a build without zlib. -/
def GunzipUtil.stub : GunzipUtil where
  implemented := false
  check_header _ _ := .ok (-1)
  origLength _ _ := .ok (-1)
  gunzip _ _ _ := .ok (-1, [])
  gzip _ _ _ := .ok (-1, [])

/-- The most elements a `std::vector<byte>` holds. -/
def vectorMaxSize : ℕ := maxObject

/-! ## Blocks -/

/-- `NParamBlock::NParams`. -/
abbrev NParams := OrderedMultiset NParam.key

/-- A param block. -/
@[ext] structure NParamBlock where
  /-- The params. -/
  m_params : NParams
  /-- If parsing from byte buffer went ok. -/
  m_valid : Bool
  /-- The flags. -/
  m_flags : UInt32
  deriving DecidableEq

namespace NParamBlock

/-- `NParamBlock::NParamBlock()`. -/
def empty : NParamBlock := ⟨OrderedMultiset.empty, true, 0⟩

/-- `NParamBlock::maxMsgSize`. -/
def maxMsgSize : ℕ := 2131072

/-- `NParamBlock::addParam`; the reference it returns is the param just inserted. -/
def addParam (b : NParamBlock) (param : NParam) : NParamBlock :=
  { b with m_params := b.m_params.insert param }

/-- `NParamBlock::getParam`: the first param with the id, or `NULL`. -/
def getParam (b : NParamBlock) (paramID : UInt16) : Option NParam :=
  b.m_params.find paramID.toNat

/-- `NParamBlock::getValid`. -/
def getValid (b : NParamBlock) : Bool := b.m_valid

/-- `NParamBlock::mayUseGzip`. -/
def mayUseGzip (b : NParamBlock) : Bool := b.m_flags &&& 0x2 != 0

/-- `NParamBlock::assignToThis` from another object: everything but the flags. -/
def assignToThis (b p : NParamBlock) : NParamBlock :=
  { b with m_params := OrderedMultiset.empty.insertAll p.m_params.toList, m_valid := p.m_valid }

/-- The flag words behind the first one: one more follows while the top bit is set. -/
def skipFlags (buff : List UInt8) (len : ℕ) : ℕ → UInt32 → ℕ → Exec ℕ
  | 0, _, _ => .error .outOfFuel
  | fuel + 1, tflag, pos =>
    if tflag &&& 0x80000000 ≠ 0 ∧ add32 pos 4 ≤ len then do
      let tflag ← NParam.getUint32FromByteArray buff pos
      skipFlags buff len fuel tflag (add32 pos 4)
    else
      .ok pos

/-- The params, one record after the other, and the check that they end at `len`. -/
def readRecords (buff : Option (List UInt8)) (len : ℕ) :
    ℕ → ℕ → NParamBlock → Exec NParamBlock
  | 0, _, _ => .error .outOfFuel
  | fuel + 1, pos, block =>
    if add32 pos 4 ≤ len then do
      let mem ← deref buff
      let id₁ ← byteAt mem pos
      let id₀ ← byteAt mem (pos + 1)
      let pos := add32 pos 2
      let len₁ ← byteAt mem pos
      let len₀ ← byteAt mem (pos + 1)
      let pos := add32 pos 2
      let length := (ofBE16 len₁ len₀).toNat
      if add32 pos length ≤ len then do
        let bytes ← slice mem pos length
        let p := (NParam.ofID (ofBE16 id₁ id₀)).addByteArray bytes
        readRecords buff len fuel (add32 pos length) (block.addParam p)
      else
        readRecords buff len fuel len { block with m_valid := false }
    else if pos ≠ len then
      .ok { block with m_valid := false }
    else
      .ok block

/-- The gzipped rest of a buffer from `pos`: the buffer, length and position to go on with and
whether it could be unpacked. -/
def gunzipRest (zip : GunzipUtil) (buff : List UInt8) (len pos : ℕ) :
    Exec (List UInt8 × ℕ × ℕ × Bool) := do
  let header ← zip.check_header (buff.drop pos) (int32 (sub32 len pos))
  if header ≠ 0 then
    let realLength ← zip.origLength (buff.drop pos) (int32 (sub32 len pos))
    if realLength ≤ maxMsgSize then
      -- a negative `realLength` becomes a huge unsigned size
      if (vectorMaxSize : ℤ) < realLength % 2 ^ 32 then
        .error .lengthError
      else
        let (gzRes, gzBuff) ← zip.gunzip realLength (buff.drop pos) (int32 (sub32 len pos))
        if 0 ≤ gzRes then
          .ok (gzBuff, realLength.toNat, 0, true)
        else
          .ok (buff, len, len, false)
    else
      .ok (buff, len, len, false)
  else
    .ok (buff, len, len, false)

/-- `NParamBlock::NParamBlock( buff, len, protVer )`; `buff` is the memory behind the pointer. -/
def ofBuffer (zip : GunzipUtil) (buff : Option (List UInt8)) (len : ℕ) (protVer : UInt8) :
    Exec NParamBlock := do
  if 0xc ≤ protVer ∧ 4 ≤ len then
    let mem ← deref buff
    let flags ← NParam.getUint32FromByteArray mem 0
    let pos ← skipFlags mem len (len / 4 + 1) flags 4
    if flags &&& 0x1 ≠ 0 then
      let (mem, len, pos, valid) ← gunzipRest zip mem len pos
      readRecords (some mem) len (len / 4 + 2) pos ⟨OrderedMultiset.empty, valid, flags⟩
    else
      readRecords (some mem) len (len / 4 + 2) pos ⟨OrderedMultiset.empty, true, flags⟩
  else
    readRecords buff len (len / 4 + 2) 0 ⟨OrderedMultiset.empty, true, 0⟩

/-- `NParamBlock::writeParams`: the block behind what is in `buff`, which has room for it. -/
def writeParams (zip : GunzipUtil) (b : NParamBlock) (buff : List UInt8) (protVer : UInt8)
    (mayUseGzip : Bool := false) : Exec (List UInt8) := do
  let startSize := buff.length
  let flags : UInt32 := if 0xc ≤ protVer ∧ zip.implemented then 0x2 else 0
  let buff := if 0xc ≤ protVer then NParam.addUint32ToByteVector buff flags else buff
  let buff := b.m_params.toList.foldl (fun buff p => p.writeTo buff) buff
  if flags &&& 0x2 ≠ 0 ∧ mayUseGzip then
    let size := buff.length - startSize - 4
    let (gres, out) ← zip.gzip (int32 size) (buff.drop (startSize + 4)) (int32 size)
    if 0 < gres then
      let gzBuff := NParam.addUint32ToByteVector (buff.take startSize) (flags ||| 0x1) ++
        (out ++ List.replicate (size - out.length) 0)
      slice gzBuff 0 (startSize + 4 + gres.toNat)
    else
      .ok buff
  else
    .ok buff

/-- `NParamBlock::writeParams` into a vector, which throws when it has no room for the params as
they are. -/
def writeParamsInto (zip : GunzipUtil) (b : NParamBlock) (buff : List UInt8) (protVer : UInt8)
    (mayUseGzip : Bool := false) : Exec (List UInt8) := do
  let plain ← b.writeParams zip buff protVer
  if vectorMaxSize < plain.length then
    .error .lengthError
  else
    b.writeParams zip buff protVer mayUseGzip

/-! ## Records and params -/

/-- The record a param is on the wire. -/
def toRecord (p : NParam) : Record := (p.m_paramID, p.m_buff)

/-- The param a record is read into. -/
def ofRecord (r : Record) : NParam := ⟨r.1, r.2⟩

/-- The block with the params of some records added, still valid if `complete`. -/
def addRecords (b : NParamBlock) (rs : List Record) (complete : Bool := true) : NParamBlock where
  m_params := b.m_params.insertAll (rs.map ofRecord)
  m_valid := b.m_valid && complete
  m_flags := b.m_flags

@[simp] theorem toRecord_ofRecord (r : Record) : toRecord (ofRecord r) = r := rfl
@[simp] theorem ofRecord_toRecord (p : NParam) : ofRecord (toRecord p) = p := rfl
@[simp] theorem addRecords_nil_true (b : NParamBlock) : b.addRecords [] true = b := by
  simp [addRecords]
@[simp] theorem addRecords_nil_false (b : NParamBlock) :
    b.addRecords [] false = { b with m_valid := false } := by
  simp [addRecords]

theorem map_ofRecord_toRecord (l : List NParam) : (l.map toRecord).map ofRecord = l := by
  simp [Function.comp_def]

/-- Assigning from another block takes over its params and its validity. -/
@[simp] theorem assignToThis_eq (b p : NParamBlock) :
    b.assignToThis p = ⟨p.m_params, p.m_valid, b.m_flags⟩ := by
  simp [assignToThis]

/-- A param is written as its record. -/
@[simp] theorem writeTo_eq (p : NParam) (buff : List UInt8) :
    p.writeTo buff = buff ++ encodeRecord (toRecord p) := by
  have hhi : (UInt16.ofNat p.m_buff.length >>> 8).toUInt8 =
      UInt8.ofNat (p.m_buff.length / 256) := by
    apply UInt8.toNat_inj.mp
    simp [Nat.shiftRight_eq_div_pow]
    omega
  have hlo : (UInt16.ofNat p.m_buff.length).toUInt8 = UInt8.ofNat (p.m_buff.length % 256) := by
    apply UInt8.toNat_inj.mp
    simp
  have hid : (p.m_paramID &&& 0xff).toUInt8 = p.m_paramID.toUInt8 := by simp
  simp only [NParam.writeTo, encodeRecord, toRecord, be16, hhi, hlo, hid]
  simp

theorem foldl_writeTo (l : List NParam) (buff : List UInt8) :
    l.foldl (fun buff p => p.writeTo buff) buff = buff ++ encodeRecords (l.map toRecord) := by
  induction l generalizing buff with
  | nil => simp
  | cons p l ih =>
    rw [List.foldl_cons, ih, writeTo_eq, List.map_cons, encodeRecords_cons, List.append_assoc]

/-! ## The parser -/

/-- The length of a window of the buffer. -/
private theorem length_drop_take {mem : List UInt8} {len : ℕ} (hlen : len ≤ mem.length)
    (pos : ℕ) : ((mem.take len).drop pos).length = len - pos := by
  rw [List.length_drop, List.length_take, Nat.min_eq_left hlen]

/-- One turn of the loop where four bytes are left: the record they head is added when it is
complete, else the block is not valid and the loop goes on at the end. -/
private theorem readRecords_header {mem : List UInt8} {len : ℕ} (hlen : len ≤ mem.length)
    (hbound : len < 2 ^ 31) {pos : ℕ} {t₁ t₀ n₁ n₀ : UInt8} {rest : List UInt8}
    (hrest : (mem.take len).drop pos = t₁ :: t₀ :: n₁ :: n₀ :: rest) (fuel : ℕ)
    (block : NParamBlock) :
    readRecords (some mem) len (fuel + 1) pos block =
      if (ofBE16 n₁ n₀).toNat ≤ rest.length then
        readRecords (some mem) len fuel (pos + 4 + (ofBE16 n₁ n₀).toNat)
          (block.addParam (ofRecord (ofBE16 t₁ t₀, rest.take (ofBE16 n₁ n₀).toNat)))
      else
        readRecords (some mem) len fuel len { block with m_valid := false } := by
  have hlength := length_drop_take hlen pos
  rw [hrest] at hlength
  simp only [List.length_cons] at hlength
  have hbytes : [t₁, t₀, n₁, n₀] <+: mem.drop pos := by
    refine List.IsPrefix.trans ⟨rest, ?_⟩ ((List.take_prefix len mem).drop pos)
    rw [hrest]
    rfl
  simp only [cons_prefix_drop, ← byteAt_eq_ok] at hbytes
  obtain ⟨h₁, h₂, h₃, h₄, -⟩ := hbytes
  have hn := (ofBE16 n₁ n₀).toNat_lt
  rw [readRecords, add32_of_lt (show pos + 4 < 2 ^ 32 by omega), if_pos (by omega)]
  simp only [deref, Exec.ok_bind, h₁, h₂, add32_of_lt (show pos + 2 < 2 ^ 32 by omega), h₃, h₄,
    add32_of_lt (show pos + 2 + 2 < 2 ^ 32 by omega)]
  rw [add32_of_lt (show pos + 2 + 2 + (ofBE16 n₁ n₀).toNat < 2 ^ 32 by omega)]
  by_cases hfit : (ofBE16 n₁ n₀).toNat ≤ rest.length
  · have hdrop : rest = (mem.take len).drop (pos + 4) := by
      rw [← List.drop_drop, hrest]
      rfl
    have hslice : slice mem (pos + 2 + 2) (ofBE16 n₁ n₀).toNat =
        .ok (rest.take (ofBE16 n₁ n₀).toNat) := by
      refine slice_eq_ok.mpr ⟨by omega, ?_⟩
      rw [hdrop, List.drop_take, List.take_take, Nat.min_eq_left (by omega)]
    rw [if_pos hfit, if_pos (by omega), hslice, Exec.ok_bind]
    rfl
  · rw [if_neg hfit, if_neg (by omega)]

/-- The last turn of the loop, where fewer than four bytes are left. -/
private theorem readRecords_end {mem : List UInt8} {len : ℕ} (hlen : len ≤ mem.length)
    (hbound : len < 2 ^ 31) {pos : ℕ} (hpos : pos ≤ len) (hshort : len < pos + 4) (fuel : ℕ)
    (block : NParamBlock) :
    readRecords (some mem) len (fuel + 1) pos block =
      .ok (block.addRecords [] ((mem.take len).drop pos).isEmpty) := by
  have hlength := length_drop_take hlen pos
  rw [readRecords, add32_of_lt (show pos + 4 < 2 ^ 32 by omega), if_neg (by omega)]
  by_cases hend : pos = len
  · simp [hend]
  · have hne : (mem.take len).drop pos ≠ [] := List.length_pos_iff.mp (by omega)
    rw [List.isEmpty_eq_false_iff.mpr hne, addRecords_nil_false, if_pos hend]

/-- **The record loop is `parseRecords`** on the bytes from its position up to `len`. -/
theorem readRecords_eq {mem : List UInt8} {len : ℕ} (hlen : len ≤ mem.length)
    (hbound : len < 2 ^ 31) {fuel pos : ℕ} (hpos : pos ≤ len) (hfuel : (len - pos) / 4 + 2 ≤ fuel)
    (block : NParamBlock) :
    readRecords (some mem) len fuel pos block =
      .ok (block.addRecords (parseRecords ((mem.take len).drop pos)).1
        (parseRecords ((mem.take len).drop pos)).2) := by
  induction fuel generalizing pos block with
  | zero => omega
  | succ fuel ih =>
    have hlength := length_drop_take hlen pos
    by_cases hmore : pos + 4 ≤ len
    · obtain ⟨t₁, t₀, n₁, n₀, rest, hrest⟩ :=
        exists_eq_header (hlength.symm ▸ Nat.le_sub_of_add_le' hmore)
      rw [hrest, readRecords_header hlen hbound hrest]
      rw [hrest] at hlength
      simp only [List.length_cons] at hlength
      by_cases hfit : (ofBE16 n₁ n₀).toNat ≤ rest.length
      · have hnext : (mem.take len).drop (pos + 4 + (ofBE16 n₁ n₀).toNat) =
            rest.drop (ofBE16 n₁ n₀).toNat := by
          rw [← List.drop_drop, ← List.drop_drop, hrest]
          rfl
        rw [if_pos hfit, ih (by omega) (by omega), hnext, parseRecords, if_pos hfit]
        rfl
      · have hend : (mem.take len).drop len = [] := List.length_eq_zero_iff.mp (by
          rw [length_drop_take hlen]
          omega)
        rw [if_neg hfit, ih le_rfl (by omega), hend, parseRecords, if_neg hfit]
        simp
    · rw [readRecords_end hlen hbound hpos (by omega), parseRecords_of_length_lt (by omega)]

/-- Below version `0xc` the parser is `parseRecords`. -/
theorem ofBuffer_old (zip : GunzipUtil) {mem : List UInt8} {len : ℕ} (hlen : len ≤ mem.length)
    (hbound : len < 2 ^ 31) {protVer : UInt8} (hver : protVer < 0xc) :
    ofBuffer zip (some mem) len protVer =
      .ok (empty.addRecords (parseRecords (mem.take len)).1 (parseRecords (mem.take len)).2) := by
  have hver' : ¬(0xc ≤ protVer ∧ 4 ≤ len) := fun h => absurd h.1 (UInt8.not_le.mpr hver)
  rw [ofBuffer, if_neg hver']
  exact readRecords_eq hlen hbound (Nat.zero_le len) (by omega) empty

/-- From version `0xc` on, a flags word that neither announces another one nor compression is
skipped, and what follows is parsed. -/
theorem ofBuffer_new (zip : GunzipUtil) {mem : List UInt8} {len : ℕ} (hlen : len ≤ mem.length)
    (hbound : len < 2 ^ 31) {protVer : UInt8} (hver : 0xc ≤ protVer) {flags : UInt32}
    (hflags : be32 flags <+: mem.take len) (hlast : flags &&& 0x80000000 = 0)
    (hplain : flags &&& 0x1 = 0) :
    ofBuffer zip (some mem) len protVer =
      .ok (addRecords ⟨OrderedMultiset.empty, true, flags⟩
        (parseRecords ((mem.take len).drop 4)).1 (parseRecords ((mem.take len).drop 4)).2) := by
  have hfour : 4 ≤ len := by
    have := hflags.length_le
    simp only [length_be32, List.length_take] at this
    omega
  have hread : NParam.getUint32FromByteArray mem 0 = .ok flags :=
    (NParam.getUint32FromByteArray_eq_ok (by omega)).mpr
      (by simpa using hflags.trans (List.take_prefix len mem))
  rw [ofBuffer, if_pos ⟨hver, hfour⟩]
  simp only [deref, Exec.ok_bind, hread, skipFlags, hlast, hplain, ne_eq, not_true_eq_false,
    false_and, if_false]
  exact readRecords_eq hlen hbound hfour (by omega) _

/-! ## Writing and parsing again -/

/-- The flags word `writeParams` emits. -/
def writtenFlags (zip : GunzipUtil) : UInt32 := if zip.implemented then 0x2 else 0

/-- What `writeParams` appends when it does not compress. -/
def encoding (zip : GunzipUtil) (b : NParamBlock) (protVer : UInt8) : List UInt8 :=
  (if 0xc ≤ protVer then be32 (writtenFlags zip) else []) ++
    encodeRecords (b.m_params.toList.map toRecord)

/-- The size of an encoding: the flags word, and four bytes more than its payload for each
param. -/
theorem length_encoding (zip : GunzipUtil) (b : NParamBlock) (protVer : UInt8) :
    (b.encoding zip protVer).length =
      (if 0xc ≤ protVer then 4 else 0) +
        (b.m_params.toList.map fun p => p.m_buff.length + 4).sum := by
  rw [encoding, List.length_append, length_encodeRecords, List.map_map]
  congr 1
  split <;> rfl

/-- **Without compression the encoding is appended**, and what was there stays. -/
theorem writeParams_eq (zip : GunzipUtil) (b : NParamBlock) (buff : List UInt8)
    (protVer : UInt8) :
    b.writeParams zip buff protVer = .ok (buff ++ b.encoding zip protVer) := by
  simp only [writeParams, Bool.false_eq_true, and_false, if_false, foldl_writeTo, encoding]
  by_cases hver : 0xc ≤ protVer <;> simp [hver, writtenFlags]

/-- **Into a vector the encoding is appended if there is room for it**, and otherwise the vector
throws. -/
theorem writeParamsInto_eq (zip : GunzipUtil) (b : NParamBlock) (buff : List UInt8)
    (protVer : UInt8) :
    b.writeParamsInto zip buff protVer =
      if vectorMaxSize < (buff ++ b.encoding zip protVer).length then .error .lengthError
      else .ok (buff ++ b.encoding zip protVer) := by
  rw [writeParamsInto, writeParams_eq, Exec.ok_bind]

/-- A list of pairs on the wire: as it is, or gzipped if that is asked for and makes it shorter. -/
def writePairs (zip : GunzipUtil) (l : List Record) (buff : List UInt8) (protVer : UInt8)
    (mayUseGzip : Bool) : Exec (List UInt8) := do
  let plain := encodeRecords l
  let written := buff ++ ((if 0xc ≤ protVer then be32 (writtenFlags zip) else []) ++ plain)
  if 0xc ≤ protVer ∧ zip.implemented ∧ mayUseGzip then
    let (gres, out) ← zip.gzip (int32 plain.length) plain (int32 plain.length)
    if 0 < gres then
      slice (buff ++ be32 0x3 ++ (out ++ List.replicate (plain.length - out.length) 0)) 0
        (buff.length + 4 + gres.toNat)
    else
      .ok written
  else
    .ok written

/-- **Writing a block** is writing its pairs. -/
theorem writeParams_pairs (b : NParamBlock) (zip : GunzipUtil) (buff : List UInt8)
    (protVer : UInt8) (mayUseGzip : Bool) :
    b.writeParams zip buff protVer mayUseGzip =
      writePairs zip (b.m_params.toList.map toRecord) buff protVer mayUseGzip := by
  generalize hrecords : b.m_params.toList.map toRecord = records
  by_cases hgzip : 0xc ≤ protVer ∧ zip.implemented ∧ mayUseGzip
  · obtain ⟨hver, himplemented, rfl⟩ := hgzip
    have hbuff : b.m_params.toList.foldl (fun buff p => p.writeTo buff) (buff ++ be32 0x2) =
        buff ++ be32 0x2 ++ encodeRecords records := by rw [foldl_writeTo, hrecords]
    have hsize : (buff ++ be32 0x2 ++ encodeRecords records).length - buff.length - 4 =
        (encodeRecords records).length := by
      simp only [List.length_append, length_be32]
      omega
    have hdrop : (buff ++ be32 0x2 ++ encodeRecords records).drop (buff.length + 4) =
        encodeRecords records := List.drop_left' (by simp)
    have htake : (buff ++ be32 0x2 ++ encodeRecords records).take buff.length = buff := by
      rw [List.append_assoc, List.take_left' rfl]
    have hflag : (0x2 : UInt32) &&& 0x2 ≠ 0 ∧ True := by decide
    simp only [writeParams, writePairs, writtenFlags, hver, himplemented, and_self, if_true,
      NParam.addUint32ToByteVector_eq, hbuff, hsize, hdrop, htake]
    rw [if_pos hflag, ← List.append_assoc]
    rfl
  · have hplain : b.writeParams zip buff protVer mayUseGzip =
        b.writeParams zip buff protVer := by
      cases mayUseGzip with
      | false => rfl
      | true =>
        have hflags : (if 0xc ≤ protVer ∧ zip.implemented then (0x2 : UInt32) else 0) = 0 := by
          apply if_neg
          intro h
          exact hgzip ⟨h.1, h.2, rfl⟩
        simp [writeParams, hflags]
    rw [hplain, writeParams_eq, writePairs, encoding, hrecords]
    exact (if_neg hgzip).symm

/-- The parser finds in an encoding what `parseRecords` finds behind the flags word, whatever the
lengths of the params. -/
theorem ofBuffer_encoding_eq (zip : GunzipUtil) (b : NParamBlock) (protVer : UInt8)
    (mem : List UInt8) (hpre : b.encoding zip protVer <+: mem)
    (hbound : (b.encoding zip protVer).length < 2 ^ 31) :
    ofBuffer zip (some mem) (b.encoding zip protVer).length protVer =
      .ok (addRecords ⟨OrderedMultiset.empty, true, if 0xc ≤ protVer then writtenFlags zip else 0⟩
        (parseRecords (encodeRecords (b.m_params.toList.map toRecord))).1
        (parseRecords (encodeRecords (b.m_params.toList.map toRecord))).2) := by
  have htake : mem.take (b.encoding zip protVer).length = b.encoding zip protVer :=
    (List.prefix_iff_eq_take.mp hpre).symm
  by_cases hver : 0xc ≤ protVer
  · have hflags : be32 (writtenFlags zip) <+: mem.take (b.encoding zip protVer).length := by
      rw [htake, encoding, if_pos hver]
      exact List.prefix_append _ _
    have hclear : writtenFlags zip &&& 0x80000000 = 0 ∧ writtenFlags zip &&& 0x1 = 0 := by
      rw [writtenFlags]
      split <;> decide
    have hdrop : (b.encoding zip protVer).drop 4 =
        encodeRecords (b.m_params.toList.map toRecord) := by
      rw [encoding, if_pos hver]
      rfl
    rw [ofBuffer_new zip hpre.length_le hbound hver hflags hclear.1 hclear.2, htake, hdrop,
      if_pos hver]
  · have henc : b.encoding zip protVer = encodeRecords (b.m_params.toList.map toRecord) := by
      rw [encoding, if_neg hver]
      rfl
    rw [ofBuffer_old zip hpre.length_le hbound (UInt8.not_le.mp hver), htake, henc, if_neg hver]
    rfl

/-- A block of params that fit the length field is parsed from its own encoding: nothing but
the flags, which become those written, can change. -/
theorem ofBuffer_encoding (zip : GunzipUtil) (b : NParamBlock) (protVer : UInt8)
    (hfits : ∀ p ∈ b.m_params.toList, p.m_buff.length ≤ 65535) (mem : List UInt8)
    (hpre : b.encoding zip protVer <+: mem) (hbound : (b.encoding zip protVer).length < 2 ^ 31) :
    ofBuffer zip (some mem) (b.encoding zip protVer).length protVer =
      .ok ⟨b.m_params, true, if 0xc ≤ protVer then writtenFlags zip else 0⟩ := by
  have hparse : parseRecords (encodeRecords (b.m_params.toList.map toRecord)) =
      (b.m_params.toList.map toRecord, true) := by
    refine parseRecords_eq_true.mpr ⟨fun r hr => ?_, rfl⟩
    obtain ⟨p, hp, rfl⟩ := List.mem_map.mp hr
    exact Nat.lt_succ_of_le (hfits p hp)
  rw [ofBuffer_encoding_eq zip b protVer mem hpre hbound, hparse]
  simp only [addRecords, map_ofRecord_toRecord, OrderedMultiset.insertAll_toList, Bool.and_true]

/-- **A valid block has used up its bytes**: its records take as many as were parsed. -/
theorem length_of_valid {b : NParamBlock} {bytes : List UInt8}
    (h : (addRecords ⟨OrderedMultiset.empty, true, b.m_flags⟩ (parseRecords bytes).1
      (parseRecords bytes).2) = b) (hvalid : b.m_valid = true) :
    (encodeRecords (b.m_params.toList.map toRecord)).length = bytes.length := by
  have hcomplete : (parseRecords bytes).2 = true := by
    rw [← h] at hvalid
    simpa [addRecords] using hvalid
  have hparse : parseRecords bytes = ((parseRecords bytes).1, true) := Prod.ext rfl hcomplete
  have hbytes := parseRecords_eq_true.mp hparse
  have hperm : (b.m_params.toList.map toRecord).Perm (parseRecords bytes).1 := by
    have hinsert := OrderedMultiset.perm_insertAll (OrderedMultiset.empty : NParams)
      ((parseRecords bytes).1.map ofRecord)
    rw [← h]
    simpa [addRecords, Function.comp_def] using hinsert.map toRecord
  rw [length_encodeRecords_perm hperm, ← hbytes.2]

/-- A NUL byte in front of an encoding keeps the params from being read back: the block that is
parsed is not valid or holds other params. -/
theorem ofBuffer_nul_encoding (zip : GunzipUtil) (b : NParamBlock) (protVer : UInt8)
    (mem : List UInt8) (hpre : 0 :: b.encoding zip protVer <+: mem)
    (hbound : (b.encoding zip protVer).length + 1 < 2 ^ 31) :
    ∃ parsed, ofBuffer zip (some mem) ((b.encoding zip protVer).length + 1) protVer = .ok parsed ∧
      ¬(parsed.m_valid = true ∧ parsed.m_params.toList = b.m_params.toList) := by
  have hle : (b.encoding zip protVer).length + 1 ≤ mem.length := hpre.length_le
  have htake : mem.take ((b.encoding zip protVer).length + 1) = 0 :: b.encoding zip protVer :=
    (List.prefix_iff_eq_take.mp hpre).symm
  by_cases hver : 0xc ≤ protVer
  · have hshape : ∃ flag, 0 :: b.encoding zip protVer =
        be32 0 ++ flag :: encodeRecords (b.m_params.toList.map toRecord) := by
      refine ⟨(writtenFlags zip).toUInt8, ?_⟩
      rw [encoding, if_pos hver, writtenFlags]
      split <;> rfl
    obtain ⟨flag, hshape⟩ := hshape
    have hflags : be32 0 <+: mem.take ((b.encoding zip protVer).length + 1) := by
      rw [htake, hshape]
      exact List.prefix_append _ _
    refine ⟨_, ofBuffer_new zip hle hbound hver hflags (by decide) (by decide), ?_⟩
    rintro ⟨hvalid, hparams⟩
    have hlen := length_of_valid rfl hvalid
    rw [hparams, htake, hshape] at hlen
    simp [be32] at hlen
  · refine ⟨_, ofBuffer_old zip hle hbound (UInt8.not_le.mp hver), ?_⟩
    rintro ⟨hvalid, hparams⟩
    have hlen := length_of_valid rfl hvalid
    rw [hparams, htake, encoding, if_neg hver] at hlen
    simp at hlen

/-- **What `writeParams` wrote is parsed as the same params in the same order**, whatever stood
in the vector before, in both framings.  The parsed block may use gzip exactly when the version
has a flags word and the build could unpack. -/
theorem ofBuffer_writeParams (zip : GunzipUtil) (b : NParamBlock) (buff : List UInt8)
    (protVer : UInt8) (hfits : ∀ p ∈ b.m_params.toList, p.m_buff.length ≤ 65535) :
    ∃ appended, b.writeParams zip buff protVer = .ok (buff ++ appended) ∧
      (appended.length < 2 ^ 31 →
        ∃ parsed, ofBuffer zip (some appended) appended.length protVer = .ok parsed ∧
          parsed.getValid = true ∧ parsed.m_params.toList = b.m_params.toList ∧
          (parsed.mayUseGzip = true ↔ 0xc ≤ protVer ∧ zip.implemented = true)) := by
  refine ⟨_, writeParams_eq zip b buff protVer, fun hbound => ?_⟩
  refine ⟨_, ofBuffer_encoding zip b protVer hfits _ List.prefix_rfl hbound, rfl, rfl, ?_⟩
  by_cases hver : 0xc ≤ protVer <;> cases himpl : zip.implemented <;>
    simp [mayUseGzip, writtenFlags, hver, himpl]

/-- Three params, two of them with the same id, behind two bytes and at version `0xd`. -/
theorem ofBuffer_writeParams_repeated :
    ∃ parsed, ofBuffer { GunzipUtil.stub with implemented := true }
        (some [0, 0, 0, 2, 0, 2, 0, 0, 0, 7, 0, 2, 1, 2, 0, 7, 0, 1, 3]) 19 0xd = .ok parsed ∧
      parsed.m_params.toList = [⟨2, []⟩, ⟨7, [1, 2]⟩, ⟨7, [3]⟩] := by
  obtain ⟨appended, hwrite, hparse⟩ :=
    ofBuffer_writeParams { GunzipUtil.stub with implemented := true }
      (empty.addRecords [(7, [1, 2]), (7, [3]), (2, [])]) [9, 9] 0xd (by decide)
  have happended : appended = [0, 0, 0, 2, 0, 2, 0, 0, 0, 7, 0, 2, 1, 2, 0, 7, 0, 1, 3] := by
    have hval : (empty.addRecords [(7, [1, 2]), (7, [3]), (2, [])]).writeParams
        { GunzipUtil.stub with implemented := true } [9, 9] 0xd =
          .ok ([9, 9] ++ [0, 0, 0, 2, 0, 2, 0, 0, 0, 7, 0, 2, 1, 2, 0, 7, 0, 1, 3]) := by decide
    exact List.append_cancel_left (Exec.unique hwrite hval)
  subst happended
  obtain ⟨parsed, hof, -, hparams, -⟩ := hparse (by decide)
  exact ⟨parsed, hof, hparams.trans (by decide)⟩

end NParamBlock

end CppCore.Ngp
