import CppCore.Ngp.GunzipRest

/-!
# Writing gzipped blocks and parsing them again

`writeParams` writes the params as they are and then, when the caller allows it and the build has
zlib, tries to put a shorter gzip stream in their place.  It keeps what it had when the stream
does not fit into as many bytes.  The constructor refuses streams that announce more than
`maxMsgSize` bytes, a limit which the writer does not know.

## Main definitions

* `Zlib.Correct` — `deflate` completes its stream or fills its space, `inflate` takes a complete
  stream back.
* `NParamBlock.gzipped` — the bytes of a gzipped block.
* `NParamBlock.writeParams_gzip` — what is appended: the plain encoding, or a shorter gzipped
  one.
* `NParamBlock.ofBuffer_writeParams_gzip` — parsing it again.
-/

namespace CppCore.Ngp

open Lib

/-- What zlib promises about a stream that `deflate` writes with `Z_FINISH`. -/
structure Zlib.Correct (z : Zlib) : Prop where
  /-- All of the input has been compressed, unless there was no space left for the stream. -/
  complete : ∀ n input stream total_in, z.deflate n input = some (stream, total_in) →
    stream.length < n → total_in = input.length
  /-- `inflate` into as many bytes as there were takes back the complete stream, and leaves alone
  what follows it. -/
  inflate_deflate : ∀ n input stream total_in, z.deflate n input = some (stream, total_in) →
    stream.length < n → ∀ tail, z.inflate input.length (stream ++ tail) =
      some (input, stream.length)

namespace Zlib

/-- One buffer and its stream keep the promise. -/
theorem correct_single (plain stream : List UInt8) (crc : UInt32) :
    (single plain stream crc).Correct where
  complete n input out total_in h _ := by
    obtain ⟨⟨rfl, -⟩, heq⟩ := Option.ite_none_right_eq_some.mp h
    exact (congrArg Prod.snd (Option.some.inj heq)).symm
  inflate_deflate n input out total_in h _ tail := by
    obtain ⟨⟨rfl, -⟩, heq⟩ := Option.ite_none_right_eq_some.mp h
    obtain rfl : stream = out := congrArg Prod.fst (Option.some.inj heq)
    exact if_pos ⟨List.prefix_append _ _, le_rfl⟩

/-! ## The stream -/

/-- The header that `gzip` writes is accepted, whatever follows it. -/
theorem check_header_gzipHeader (tail : List UInt8) :
    check_header (gzipHeader ++ tail) (gzipHeader ++ tail).length = .ok 10 := by
  have hlen : ((gzipHeader ++ tail).length : ℤ) = 10 + tail.length := by
    rw [List.length_append, show gzipHeader.length = 10 from rfl]
    push_cast
    rfl
  have hget : ∀ (i : ℕ) (b : UInt8) (ok : Bool), gzipHeader[i]? = some b →
      get_byte_func (gzipHeader ++ tail) (10 + tail.length) ⟨i, ok⟩ =
        .ok (b.toUInt32, ⟨i + 1, ok⟩) := by
    intro i b ok hi
    have hlt : i < 10 := (List.getElem?_eq_some_iff.mp hi).1
    have hbyte : byteAt (gzipHeader ++ tail) i = .ok b := by
      rw [byteAt_eq_ok, List.getElem?_append_left hlt, hi]
    rw [get_byte_func, nextPos, if_pos (by simp only; omega), Exec.ok_bind,
      if_neg (by simp only; omega), hbyte, Exec.ok_bind]
  have hmagic : isGzip (gzipHeader ++ tail) = .ok true := rfl
  rw [check_header, hlen, if_neg (by omega), hmagic, Exec.ok_bind]
  simp [if_neg (show ¬(10 + tail.length : ℤ) < 4 by omega), hget 2 8 true rfl, hget 3 0 true rfl,
    Z_DEFLATED, skipFields, skipBytes, optionalField, hget 4 0 true rfl, hget 5 0 true rfl,
    hget 6 0 true rfl, hget 7 0 true rfl, hget 8 0 true rfl, hget 9 3 true rfl]

/-- The stream that `gzip` writes. -/
def gzipStream (z : Zlib) (plain stream : List UInt8) : List UInt8 :=
  gzipHeader ++ (stream ++ trailer (z.crc32 plain) plain.length)

@[simp] theorem length_gzipStream (z : Zlib) (plain stream : List UInt8) :
    (gzipStream z plain stream).length = stream.length + 18 := by
  simp [gzipStream, gzipHeader, trailer]

section
variable {z : Zlib} {plain : List UInt8}

/-- `gzip` into as much space as there is input. -/
private theorem gzip_eq (z : Zlib) (hbound : plain.length < 2 ^ 31) :
    z.gzip plain.length plain plain.length =
      if 10 ≤ plain.length then
        .ok (z.appendTrailer plain.length gzipHeader plain (z.deflate (plain.length - 10) plain))
      else
        .ok (z.appendTrailer plain.length [] plain (z.deflate plain.length plain)) := by
  have hmod : ((plain.length : ℤ) % 2 ^ 32).toNat = plain.length := by omega
  have hslice : slice plain 0 plain.length = .ok plain :=
    slice_eq_ok.mpr ⟨by omega, by simp⟩
  rw [gzip, hmod, hslice, Exec.ok_bind]
  by_cases hten : 10 ≤ plain.length
  · simp only [if_pos hten, show gzipHeader.length = 10 from rfl]
  · simp only [if_neg hten, List.length_nil, Nat.sub_zero]

/-- A complete stream which leaves space for the header and the trailer is what `gzip` writes. -/
theorem gzip_of_deflate (hz : z.Correct) (hbound : plain.length < 2 ^ 31) {stream : List UInt8}
    {total_in : ℕ} (hdeflate : z.deflate (plain.length - 10) plain = some (stream, total_in))
    (hfits : stream.length + 18 ≤ plain.length) :
    z.gzip plain.length plain plain.length =
      .ok ((z.gzipStream plain stream).length, z.gzipStream plain stream) := by
  have hten : 10 ≤ plain.length := by omega
  have hroom : 8 ≤ plain.length - gzipHeader.length - stream.length := by
    rw [show gzipHeader.length = 10 from rfl]
    omega
  have htotal := hz.complete _ _ _ _ hdeflate (by omega)
  rw [gzip_eq z hbound, if_pos hten, hdeflate, appendTrailer, if_pos hroom]
  simp only [if_pos hten, htotal, gzipStream, List.append_assoc]

/-- **`gzip` into as much space as there is input fails, or writes the complete stream.** -/
theorem gzip_spec (z : Zlib) (hbound : plain.length < 2 ^ 31) :
    (∃ out, z.gzip plain.length plain plain.length = .ok (-1, out)) ∨
    ∃ stream total_in, z.deflate (plain.length - 10) plain = some (stream, total_in) ∧
      stream.length + 18 ≤ plain.length := by
  rw [gzip_eq z hbound]
  by_cases hten : 10 ≤ plain.length
  · rw [if_pos hten]
    cases z.deflate (plain.length - 10) plain with
    | none => exact .inl ⟨_, rfl⟩
    | some result =>
      by_cases hroom : 8 ≤ plain.length - gzipHeader.length - result.1.length
      · refine .inr ⟨result.1, result.2, rfl, ?_⟩
        rw [show gzipHeader.length = 10 from rfl] at hroom
        omega
      · exact .inl ⟨gzipHeader ++ result.1, by rw [appendTrailer, if_neg hroom]⟩
  · rw [if_neg hten]
    left
    cases z.deflate plain.length plain with
    | none => exact ⟨_, rfl⟩
    | some result =>
      simp only [appendTrailer, if_neg hten]
      split <;> exact ⟨_, rfl⟩

end

/-- The stream announces how much was compressed. -/
theorem origLength_gzipStream (z : Zlib) {plain : List UInt8} (stream : List UInt8)
    (hbound : plain.length < 2 ^ 31) :
    origLength (z.gzipStream plain stream) (z.gzipStream plain stream).length =
      .ok (plain.length : ℤ) := by
  have hsplit : z.gzipStream plain stream =
      (gzipHeader ++ stream ++ (be32 (z.crc32 plain)).reverse) ++
        (be32 (UInt32.ofNat plain.length)).reverse := by
    simp only [gzipStream, trailer, List.append_assoc]
  have hnat : (UInt32.ofNat plain.length).toNat = plain.length := by
    rw [UInt32.toNat_ofNat']
    exact Nat.mod_eq_of_lt (by omega)
  rw [hsplit, origLength_append, hnat, int32, Nat.mod_eq_of_lt (by omega), if_pos hbound]

/-- **`gunzip` takes a complete stream back.** -/
theorem gunzip_gzipStream {z : Zlib} (hz : z.Correct) {plain stream : List UInt8} {n total_in : ℕ}
    (hbound : plain.length < 2 ^ 31) (hdeflate : z.deflate n plain = some (stream, total_in))
    (hspace : stream.length < n) :
    z.gunzip plain.length (z.gzipStream plain stream) (z.gzipStream plain stream).length =
      .ok ((z.gzipStream plain stream).length, plain) := by
  have hlen : (z.gzipStream plain stream).length = stream.length + 18 :=
    length_gzipStream z plain stream
  have hslice : slice (z.gzipStream plain stream) 10 (stream.length + 8) =
      .ok (stream ++ trailer (z.crc32 plain) plain.length) := by
    rw [slice_eq_ok, hlen]
    refine ⟨by omega, ?_⟩
    have hdrop : (z.gzipStream plain stream).drop 10 =
        stream ++ trailer (z.crc32 plain) plain.length := rfl
    rw [hdrop, List.take_of_length_le]
    simp [trailer]
  have hcheck : check_header (z.gzipStream plain stream) (z.gzipStream plain stream).length =
      .ok 10 := check_header_gzipHeader _
  have hmod : ((plain.length : ℤ) % 2 ^ 32).toNat = plain.length := by omega
  have hrest : (((z.gzipStream plain stream).length : ℤ) - 10).toNat = stream.length + 8 := by
    omega
  have hall : (10 : ℤ) + stream.length + 8 = (z.gzipStream plain stream).length := by omega
  rw [gunzip, hcheck, Exec.ok_bind, if_neg (by decide), hrest, show (10 : ℤ).toNat = 10 from rfl,
    hslice, Exec.ok_bind, hmod, hz.inflate_deflate n plain stream total_in hdeflate hspace]
  simp only [if_pos hall]

end Zlib

namespace NParamBlock

/-! ## The writer -/

/-- A block with its params gzipped: the flags word and the stream. -/
def gzipped (z : Zlib) (plain stream : List UInt8) : List UInt8 :=
  be32 0x3 ++ z.gzipStream plain stream

/-- What `writeParams` compresses: the params without the flags word. -/
def plainParams (b : NParamBlock) : List UInt8 := encodeRecords (b.m_params.toList.map toRecord)

variable {z : Zlib} {protVer : UInt8}

theorem encoding_ofZlib (hver : 0xc ≤ protVer) (b : NParamBlock) :
    b.encoding (GunzipUtil.ofZlib (some z)) protVer = be32 0x2 ++ b.plainParams := by
  rw [encoding, if_pos hver]
  rfl

/-- The writer hands the params to `gzip` and keeps what it had when that fails. -/
private theorem writeParams_ofZlib (hver : 0xc ≤ protVer) (b : NParamBlock) (buff : List UInt8)
    (hbound : b.plainParams.length < 2 ^ 31) :
    b.writeParams (GunzipUtil.ofZlib (some z)) buff protVer true = (do
      let (gres, out) ← z.gzip b.plainParams.length b.plainParams b.plainParams.length
      if 0 < gres then
        slice (buff ++ be32 0x3 ++
          (out ++ List.replicate (b.plainParams.length - out.length) 0)) 0
          (buff.length + 4 + gres.toNat)
      else
        .ok (buff ++ be32 0x2 ++ b.plainParams)) := by
  have hgzip : 0xc ≤ protVer ∧ (GunzipUtil.ofZlib (some z)).implemented = true ∧ true = true :=
    ⟨hver, rfl, rfl⟩
  have hint : int32 b.plainParams.length = b.plainParams.length := by
    rw [int32, Nat.mod_eq_of_lt (by omega), if_pos (by omega)]
  have hplain : encodeRecords (b.m_params.toList.map toRecord) = b.plainParams := rfl
  rw [writeParams_pairs, writePairs, if_pos hgzip]
  simp only [hplain, hint, if_pos hver, ← List.append_assoc]
  rfl

/-- A stream that is shorter takes the place of the params. -/
theorem writeParams_of_deflate (hz : z.Correct) (hver : 0xc ≤ protVer) (b : NParamBlock)
    (buff : List UInt8) (hbound : b.plainParams.length < 2 ^ 31) {stream : List UInt8}
    {total_in : ℕ}
    (hdeflate : z.deflate (b.plainParams.length - 10) b.plainParams = some (stream, total_in))
    (hfits : stream.length + 18 ≤ b.plainParams.length) :
    b.writeParams (GunzipUtil.ofZlib (some z)) buff protVer true =
      .ok (buff ++ gzipped z b.plainParams stream) := by
  have hlen : (z.gzipStream b.plainParams stream).length = stream.length + 18 :=
    Zlib.length_gzipStream z b.plainParams stream
  rw [writeParams_ofZlib hver b buff hbound, Zlib.gzip_of_deflate hz hbound hdeflate hfits,
    Exec.ok_bind]
  simp only [hlen, gzipped]
  rw [if_pos (by omega), slice_eq_ok]
  refine ⟨?_, ?_⟩
  · simp
    omega
  · rw [List.drop_zero, ← List.append_assoc, ← List.append_assoc]
    exact (List.take_left' (by simp; omega)).symm

/-- **What is appended is the plain encoding or a shorter gzipped one.** -/
theorem writeParams_gzip (hz : z.Correct) (hver : 0xc ≤ protVer) (b : NParamBlock)
    (buff : List UInt8) (hbound : b.plainParams.length < 2 ^ 31) :
    b.writeParams (GunzipUtil.ofZlib (some z)) buff protVer true =
        .ok (buff ++ b.encoding (GunzipUtil.ofZlib (some z)) protVer) ∨
      ∃ stream total_in,
        z.deflate (b.plainParams.length - 10) b.plainParams = some (stream, total_in) ∧
        stream.length + 18 ≤ b.plainParams.length ∧
        b.writeParams (GunzipUtil.ofZlib (some z)) buff protVer true =
          .ok (buff ++ gzipped z b.plainParams stream) := by
  rcases Zlib.gzip_spec z hbound with ⟨out, hgzip⟩ | ⟨stream, total_in, hdeflate, hfits⟩
  · left
    rw [encoding_ofZlib hver, writeParams_ofZlib hver b buff hbound, hgzip, Exec.ok_bind]
    simp
  · exact .inr ⟨stream, total_in, hdeflate, hfits,
      writeParams_of_deflate hz hver b buff hbound hdeflate hfits⟩

/-! ## The parser -/

/-- **A gzipped block is parsed as what it was, unless it announces more than the limit.** -/
theorem ofBuffer_gzipped (hz : z.Correct) (hver : 0xc ≤ protVer) (b : NParamBlock)
    (hfits : ∀ p ∈ b.m_params.toList, p.m_buff.length ≤ 65535)
    (hbound : b.plainParams.length + 4 < 2 ^ 31) {stream : List UInt8} {n total_in : ℕ}
    (hdeflate : z.deflate n b.plainParams = some (stream, total_in))
    (hspace : stream.length < n) (hshorter : stream.length + 18 ≤ b.plainParams.length) :
    ofBuffer (GunzipUtil.ofZlib (some z)) (some (gzipped z b.plainParams stream))
        (gzipped z b.plainParams stream).length protVer =
      .ok (if b.plainParams.length ≤ maxMsgSize then ⟨b.m_params, true, 0x3⟩
        else ⟨OrderedMultiset.empty, false, 0x3⟩) := by
  set plain := b.plainParams with hplain
  have hflags : (flagWords (gzipped z plain stream)).head? = some 0x3 := rfl
  have hlength : (gzipped z plain stream).length < 2 ^ 31 := by
    simp [gzipped]
    omega
  have hdrop : (gzipped z plain stream).drop 4 = z.gzipStream plain stream := rfl
  have hend : flagsEnd (gzipped z plain stream) = 4 := flagsEnd_of_last hflags (by decide)
  have hcheck : (GunzipUtil.ofZlib (some z)).check_header (z.gzipStream plain stream)
      (z.gzipStream plain stream).length = .ok 10 := Zlib.check_header_gzipHeader _
  have horig : (GunzipUtil.ofZlib (some z)).origLength (z.gzipStream plain stream)
      (z.gzipStream plain stream).length = .ok (plain.length : ℤ) :=
    Zlib.origLength_gzipStream z stream (by omega)
  have hrest := gunzipRest_eq _ hlength (by rw [hend]; exact hdrop) hcheck (by decide) horig
  rw [ofBuffer_gzip _ hlength hver hflags (by decide), hrest]
  by_cases hmax : plain.length ≤ maxMsgSize
  · have hmod : (plain.length : ℤ) % 2 ^ 32 = plain.length := by omega
    have hroom : ¬(vectorMaxSize : ℤ) < plain.length := by
      simp only [vectorMaxSize, maxObject]
      omega
    have hgunzip : (GunzipUtil.ofZlib (some z)).gunzip plain.length (z.gzipStream plain stream)
        (z.gzipStream plain stream).length = .ok ((z.gzipStream plain stream).length, plain) :=
      Zlib.gunzip_gzipStream hz (by omega) hdeflate hspace
    have hparse : parseRecords plain = (b.m_params.toList.map toRecord, true) := by
      refine parseRecords_eq_true.mpr ⟨fun r hr => ?_, rfl⟩
      obtain ⟨p, hp, rfl⟩ := List.mem_map.mp hr
      exact Nat.lt_succ_of_le (hfits p hp)
    rw [if_pos (by omega), hmod, if_neg hroom, hgunzip, Exec.ok_bind, if_pos hmax]
    simp only [Int.natCast_nonneg, if_true, Exec.ok_bind, Int.toNat_natCast]
    have hfuel : (plain.length - 0) / 4 + 2 ≤ plain.length / 4 + 2 := by omega
    rw [readRecords_eq le_rfl (by omega) (Nat.zero_le _) hfuel, List.take_length, List.drop_zero,
      hparse]
    simp only [addRecords, map_ofRecord_toRecord, OrderedMultiset.insertAll_toList, Bool.and_true]
  · rw [if_neg (by omega), if_neg hmax, Exec.ok_bind]
    exact readRecords_rejected hlength

/-- **Gzipped blocks decode, up to the limit of the parser.**  Behind whatever is in the vector no
more bytes are appended than without compression; they are parsed as the same params in the same
order unless the block was compressed from more than `maxMsgSize` bytes, and as a block that is
not valid if it was. -/
theorem ofBuffer_writeParams_gzip (z : Zlib) (hz : z.Correct) (b : NParamBlock)
    (hfits : ∀ p ∈ b.m_params.toList, p.m_buff.length ≤ 65535) (protVer : UInt8)
    (hver : 0xc ≤ protVer)
    (hbound : (b.encoding (GunzipUtil.ofZlib (some z)) protVer).length < 2 ^ 31)
    (buff : List UInt8) :
    ∃ appended, b.writeParams (GunzipUtil.ofZlib (some z)) buff protVer true =
        .ok (buff ++ appended) ∧
      appended.length ≤ (b.encoding (GunzipUtil.ofZlib (some z)) protVer).length ∧
      ((b.encoding (GunzipUtil.ofZlib (some z)) protVer).length ≤ maxMsgSize + 4 ∨
          appended = b.encoding (GunzipUtil.ofZlib (some z)) protVer →
        ∃ parsed, ofBuffer (GunzipUtil.ofZlib (some z)) (some appended) appended.length protVer =
            .ok parsed ∧
          parsed.getValid = true ∧ parsed.m_params.toList = b.m_params.toList) ∧
      (maxMsgSize + 4 < (b.encoding (GunzipUtil.ofZlib (some z)) protVer).length ∧
          appended ≠ b.encoding (GunzipUtil.ofZlib (some z)) protVer →
        ∃ parsed, ofBuffer (GunzipUtil.ofZlib (some z)) (some appended) appended.length protVer =
            .ok parsed ∧
          parsed.getValid = false) := by
  have hplain : (b.encoding (GunzipUtil.ofZlib (some z)) protVer).length =
      b.plainParams.length + 4 := by
    rw [encoding_ofZlib hver, List.length_append, length_be32, Nat.add_comm]
  rcases writeParams_gzip hz hver b buff (by omega) with
    hwrite | ⟨stream, total_in, hdeflate, hshorter, hwrite⟩
  · refine ⟨_, hwrite, le_rfl, fun _ => ?_, fun hlarge => absurd rfl hlarge.2⟩
    exact ⟨_, ofBuffer_encoding _ b protVer hfits _ List.prefix_rfl hbound, rfl, rfl⟩
  · have hlength : (gzipped z b.plainParams stream).length = stream.length + 22 := by
      simp [gzipped]
      omega
    have hparse := ofBuffer_gzipped hz hver b hfits (by omega) hdeflate (by omega) hshorter
    refine ⟨_, hwrite, by omega, ?_, ?_⟩
    · intro hlimit
      have hmax : b.plainParams.length ≤ maxMsgSize := by
        rcases hlimit with hlimit | hsame
        · omega
        · rw [encoding_ofZlib hver] at hsame
          cases List.append_inj_left hsame rfl
      rw [if_pos hmax] at hparse
      exact ⟨_, hparse, rfl, rfl⟩
    · intro hlarge
      rw [if_neg (by omega)] at hparse
      exact ⟨_, hparse, rfl⟩

/-! ## Two blocks -/

/-- A block with a param of forty bytes. -/
def fortyZeros : NParamBlock := empty.addRecords [(1, List.replicate 40 0)]

/-- zlib on this block. -/
def zlibForty : Zlib :=
  Zlib.single fortyZeros.plainParams [0x63, 0x60, 0x64, 0xd0, 0x60, 0x20, 0x12, 0, 0] 0x5cad7cdb

/-- A param of forty bytes takes 31 bytes in place of 48. -/
theorem ofBuffer_writeParams_gzip_forty :
    ∃ appended, fortyZeros.writeParams (GunzipUtil.ofZlib (some zlibForty)) [9] 0xd true =
        .ok ([9] ++ appended) ∧ appended.length = 31 ∧
      ∃ parsed, ofBuffer (GunzipUtil.ofZlib (some zlibForty)) (some appended) appended.length 0xd =
          .ok parsed ∧
        parsed.getValid = true ∧ parsed.m_params.toList = [⟨1, List.replicate 40 0⟩] := by
  obtain ⟨appended, hwrite, -, hparse, -⟩ := ofBuffer_writeParams_gzip zlibForty
    (Zlib.correct_single _ _ _) fortyZeros (by decide) 0xd (by decide) (by decide) [9]
  have hval : fortyZeros.writeParams (GunzipUtil.ofZlib (some zlibForty)) [9] 0xd true =
      .ok ([9] ++ gzipped zlibForty fortyZeros.plainParams
        [0x63, 0x60, 0x64, 0xd0, 0x60, 0x20, 0x12, 0, 0]) := by decide
  obtain rfl := List.append_cancel_left (Exec.unique hwrite hval)
  exact ⟨_, hwrite, by decide, hparse (.inl (by decide))⟩

/-- zlib on buffers of NUL bytes: the stream is a single one, and `inflate` fills its space. -/
def zlibZeros : Zlib where
  deflate n input :=
    if input = List.replicate input.length 0 ∧ 1 ≤ n then some ([0], input.length) else none
  inflate n input := if [0] <+: input then some (List.replicate n 0, 1) else none
  crc32 _ := 0
  length_deflate n input out hout := by
    obtain ⟨hfits, heq⟩ := Option.ite_none_right_eq_some.mp hout
    obtain rfl := Option.some.inj heq
    exact hfits.2
  length_inflate n input out hout := by
    obtain ⟨-, heq⟩ := Option.ite_none_right_eq_some.mp hout
    obtain rfl := Option.some.inj heq
    exact List.length_replicate.le

theorem correct_zlibZeros : zlibZeros.Correct where
  complete n input out total_in h _ := by
    obtain ⟨-, heq⟩ := Option.ite_none_right_eq_some.mp h
    exact (congrArg Prod.snd (Option.some.inj heq)).symm
  inflate_deflate n input out total_in h _ tail := by
    obtain ⟨⟨hzeros, -⟩, heq⟩ := Option.ite_none_right_eq_some.mp h
    obtain rfl : [0] = out := congrArg Prod.fst (Option.some.inj heq)
    have hinflate : zlibZeros.inflate input.length ([0] ++ tail) =
        some (List.replicate input.length 0, 1) := by
      simp [zlibZeros]
    rw [hinflate, ← hzeros]
    rfl

/-- A block of so many params with the id zero and without payload. -/
def emptyParams (k : ℕ) : NParamBlock where
  m_params := ⟨List.replicate k ⟨0, []⟩, List.pairwise_replicate.mpr (.inr le_rfl)⟩
  m_valid := true
  m_flags := 0

theorem plainParams_emptyParams (k : ℕ) :
    (emptyParams k).plainParams = List.replicate (4 * k) 0 := by
  have hrecords : encodeRecords (List.replicate k (0, [])) = List.replicate (4 * k) 0 := by
    induction k with
    | zero => rfl
    | succ k ih =>
      rw [List.replicate_succ, encodeRecords_cons, ih, Nat.mul_succ, Nat.add_comm,
        List.replicate_add]
      rfl
  rw [plainParams, ← hrecords]
  simp [emptyParams, toRecord]

/-- Many params without payload are compressed, and refused. -/
private theorem emptyParams_refused {k : ℕ} (hk : maxMsgSize < 4 * k) (hbound : 4 * k < 2 ^ 30) :
    ∃ bytes, (emptyParams k).writeParams (GunzipUtil.ofZlib (some zlibZeros)) [] 0xc true =
        .ok bytes ∧
      ofBuffer (GunzipUtil.ofZlib (some zlibZeros)) (some bytes) bytes.length 0xc =
        .ok ⟨OrderedMultiset.empty, false, 0x3⟩ := by
  have hplain := plainParams_emptyParams k
  have hlen : (emptyParams k).plainParams.length = 4 * k := by
    rw [hplain, List.length_replicate]
  have hmany : 18 < 4 * k := by
    rw [maxMsgSize] at hk
    omega
  have hdeflate : zlibZeros.deflate ((emptyParams k).plainParams.length - 10)
      (emptyParams k).plainParams = some ([0], 4 * k) := by
    have hspace : 1 ≤ (emptyParams k).plainParams.length - 10 := by omega
    rw [← hlen]
    exact if_pos ⟨by rw [hlen]; exact hplain, hspace⟩
  have hspace : ([0] : List UInt8).length < (emptyParams k).plainParams.length - 10 := by
    rw [List.length_singleton]
    omega
  have hshorter : ([0] : List UInt8).length + 18 ≤ (emptyParams k).plainParams.length := by
    rw [List.length_singleton]
    omega
  have hver : (0xc : UInt8) ≤ 0xc := by decide
  have hparse := ofBuffer_gzipped correct_zlibZeros hver (emptyParams k)
    (fun p hp => by rw [List.eq_of_mem_replicate hp]; exact Nat.zero_le _) (by omega) hdeflate
    hspace hshorter
  rw [if_neg (by omega)] at hparse
  exact ⟨_, writeParams_of_deflate correct_zlibZeros hver _ _ (by omega) hdeflate hshorter,
    hparse⟩

/-- A block whose encoding exceeds the limit of the parser is compressed all the same, and is not
parsed. -/
theorem not_ofBuffer_writeParams_gzip :
    ¬∀ z : Zlib, z.Correct → ∀ b : NParamBlock,
      (∀ p ∈ b.m_params.toList, p.m_buff.length ≤ 65535) → ∀ protVer : UInt8, 0xc ≤ protVer →
      (b.encoding (GunzipUtil.ofZlib (some z)) protVer).length < 2 ^ 31 → ∀ buff : List UInt8,
      ∃ appended, b.writeParams (GunzipUtil.ofZlib (some z)) buff protVer true =
          .ok (buff ++ appended) ∧
        appended.length ≤ (b.encoding (GunzipUtil.ofZlib (some z)) protVer).length ∧
        ∃ parsed, ofBuffer (GunzipUtil.ofZlib (some z)) (some appended) appended.length protVer =
            .ok parsed ∧
          parsed.getValid = true ∧ parsed.m_params.toList = b.m_params.toList := by
  intro h
  obtain ⟨bytes, hwrite, hparse⟩ :=
    emptyParams_refused (show maxMsgSize < 4 * 532769 by decide) (by decide)
  obtain ⟨appended, hwrite', -, parsed, hparse', hvalid, -⟩ := h zlibZeros correct_zlibZeros
    (emptyParams 532769) (fun p hp => by rw [List.eq_of_mem_replicate hp]; exact Nat.zero_le _)
    0xc (by decide) (by
      rw [encoding_ofZlib (by decide), List.length_append, plainParams_emptyParams,
        List.length_replicate]
      decide) []
  obtain rfl : bytes = appended := Exec.unique hwrite hwrite'
  obtain rfl := Exec.unique hparse hparse'
  cases hvalid

end NParamBlock

end CppCore.Ngp
