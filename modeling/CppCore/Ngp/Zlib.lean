import CppCore.Ngp.NParamBlock

/-!
# Compression with zlib

`GunzipUtil` and `GzipUtil` as a build with zlib has them.  zlib itself is a parameter: all that
is known of it is that it writes no more than the space it is given.  Of the framing, the header
is checked byte by byte and the length announced at the end is read, while the checksum in front
of it is written only.

## Main definitions

* `Zlib` — raw `deflate` and `inflate` as they are called.
* `Zlib.check_header`, `Zlib.origLength`, `Zlib.gunzip`, `Zlib.gzip` — the framing.
* `Zlib.origLength_spec` — the announced length is what the last four bytes say.
* `GunzipUtil.ofZlib` — the compression of a build with or without zlib.
-/

namespace CppCore.Ngp

open Lib

/-- zlib, as far as it is used: one call on a whole buffer. -/
structure Zlib where
  /-- `deflate( &s, Z_FINISH )` of a raw stream into so many bytes of space: the bytes put there
  and `total_in`, unless it returns something else than `Z_OK` and `Z_STREAM_END`. -/
  deflate : ℕ → List UInt8 → Option (List UInt8 × ℕ)
  /-- `inflate( &s, 1 )` of a raw stream, between `inflateInit2` and `inflateEnd`, into so many
  bytes of space: the bytes put there and the number of bytes consumed, unless one of the three
  fails. -/
  inflate : ℕ → List UInt8 → Option (List UInt8 × ℕ)
  /-- `crc32` of a buffer. -/
  crc32 : List UInt8 → UInt32
  /-- `deflate` stays inside its space. -/
  length_deflate : ∀ n input, ∀ out ∈ deflate n input, out.1.length ≤ n
  /-- `inflate` stays inside its space. -/
  length_inflate : ∀ n input, ∀ out ∈ inflate n input, out.1.length ≤ n

namespace Zlib

/-- zlib as it is with one buffer and the stream it is compressed to, refusing everything else. -/
def single (plain stream : List UInt8) (crc : UInt32) : Zlib where
  deflate n input :=
    if input = plain ∧ stream.length ≤ n then some (stream, plain.length) else none
  inflate n input :=
    if stream <+: input ∧ plain.length ≤ n then some (plain, stream.length) else none
  crc32 _ := crc
  length_deflate n input out hout := by
    obtain ⟨hfits, heq⟩ := Option.ite_none_right_eq_some.mp hout
    obtain rfl := Option.some.inj heq
    exact hfits.2
  length_inflate n input out hout := by
    obtain ⟨hfits, heq⟩ := Option.ite_none_right_eq_some.mp hout
    obtain rfl := Option.some.inj heq
    exact hfits.2

/-! ## The header -/

/-- The scan of a header: where it is, and whether it has not asked for a byte past the end. -/
structure HeaderScan where
  /-- `headerPos`. -/
  headerPos : ℕ
  /-- `ok`. -/
  ok : Bool
  deriving DecidableEq

/-- `EOF`, the bits of `-1`. -/
def EOF : UInt32 := 0xffffffff

/-- `headerpos++`, of an `int`. -/
def nextPos (headerpos : ℕ) : Exec ℕ :=
  if headerpos + 1 < 2 ^ 31 then .ok (headerpos + 1) else .error .signedOverflow

/-- `get_byte_func`: the next byte as an `int`. -/
def get_byte_func (header : List UInt8) (headerlen : ℤ) (s : HeaderScan) :
    Exec (UInt32 × HeaderScan) := do
  let headerpos ← nextPos s.headerPos
  if headerlen ≤ s.headerPos then
    .ok (EOF, ⟨headerpos, if headerlen < headerpos then false else s.ok⟩)
  else
    let b ← byteAt header s.headerPos
    .ok (b.toUInt32, ⟨headerpos, s.ok⟩)

/-- So many calls of `get_byte` whose result is not used. -/
def skipBytes (header : List UInt8) (len : ℤ) : ℕ → HeaderScan → Exec HeaderScan
  | 0, s => .ok s
  | n + 1, s => do
    let (_, s) ← get_byte_func header len s
    skipBytes header len n s

/-- The loop over the extra field. -/
def skipExtraField (header : List UInt8) (len : ℤ) : ℕ → HeaderScan → Exec HeaderScan
  | 0, s => .ok s
  | flaglen + 1, s => do
    let (c, s) ← get_byte_func header len s
    if c ≠ EOF then skipExtraField header len flaglen s else .ok s

/-- The extra field: its length and so many bytes. -/
def extraField (header : List UInt8) (len : ℤ) (s : HeaderScan) : Exec HeaderScan := do
  let (lo, s) ← get_byte_func header len s
  let (hi, s) ← get_byte_func header len s
  skipExtraField header len (lo + hi <<< 8).toNat s

/-- The loop over the file name, and the one over the comment. -/
def skipString (header : List UInt8) (len : ℤ) : ℕ → HeaderScan → Exec HeaderScan
  | 0, _ => .error .outOfFuel
  | fuel + 1, s => do
    let (c, s) ← get_byte_func header len s
    if c ≠ 0 ∧ c ≠ EOF then skipString header len fuel s else .ok s

/-- `isGzip`. -/
def isGzip (inBuffer : List UInt8) : Exec Bool := do
  let b₀ ← byteAt inBuffer 0
  if b₀ = 0x1f then
    let b₁ ← byteAt inBuffer 1
    .ok (b₁ = 0x8b)
  else
    .ok false

/-- `Z_DEFLATED`. -/
def Z_DEFLATED : UInt32 := 8

/-- A field which is there when its flag is set. -/
def optionalField (flags flag : UInt32) (field : HeaderScan → Exec HeaderScan) (s : HeaderScan) :
    Exec HeaderScan :=
  if flags &&& flag ≠ 0 then field s else .ok s

/-- The part of `check_header` behind the flags: time, xflags and OS code, and the optional
fields. -/
def skipFields (header : List UInt8) (len : ℤ) (flags : UInt32) (s : HeaderScan) :
    Exec HeaderScan := do
  let s ← skipBytes header len 6 s
  let s ← optionalField flags 0x04 (extraField header len) s
  let s ← optionalField flags 0x08 (skipString header len (len.toNat + 1)) s
  let s ← optionalField flags 0x10 (skipString header len (len.toNat + 1)) s
  optionalField flags 0x02 (skipBytes header len 2) s

/-- `GunzipUtil::check_header` with zlib: the length of the header, `-1` for one that is not
accepted and `-2` for one that is not complete. -/
def check_header (header : List UInt8) (len : ℤ) : Exec ℤ := do
  if len < 2 then
    .ok (-2)
  else
    let gz ← isGzip header
    if ¬gz then
      .ok (-1)
    else if len < 4 then
      .ok (-2)
    else
      let (method, s) ← get_byte_func header len ⟨2, true⟩
      let (flags, s) ← get_byte_func header len s
      if method ≠ Z_DEFLATED ∨ flags &&& 0xE0 ≠ 0 then
        .ok (-1)
      else
        let s ← skipFields header len flags s
        if s.ok then .ok s.headerPos else .ok (-2)

/-! ## The whole stream -/

/-- `getLong`: four bytes, least significant first. -/
def getLong (bytePtr : List UInt8) : Exec UInt32 := do
  let b₀ ← byteAt bytePtr 0
  let b₁ ← byteAt bytePtr 1
  let b₂ ← byteAt bytePtr 2
  let b₃ ← byteAt bytePtr 3
  .ok (ofBE32 b₃ b₂ b₁ b₀)

/-- `GunzipUtil::origLength` with zlib. -/
def origLength (inBuffer : List UInt8) (inlen : ℤ) : Exec ℤ :=
  if inlen - 4 < 0 then .ok (-1)
  else do
    let n ← getLong (inBuffer.drop (inlen - 4).toNat)
    .ok (int32 n.toNat)

/-- `GunzipUtil::gunzip` with zlib: the checksum and the length at the end are skipped. -/
def gunzip (z : Zlib) (outlen : ℤ) (inBuffer : List UInt8) (inlen : ℤ) :
    Exec (ℤ × List UInt8) := do
  let headerLen ← check_header inBuffer inlen
  if headerLen < 0 then
    .ok (-1, [])
  else
    let input ← slice inBuffer headerLen.toNat (inlen - headerLen).toNat
    match z.inflate (outlen % 2 ^ 32).toNat input with
    | none => .ok (-1, [])
    | some (out, consumed) =>
      if headerLen + consumed + 8 = inlen then .ok (inlen, out) else .ok (-1, out)

/-- The header `gzip` writes. -/
def gzipHeader : List UInt8 := [0x1f, 0x8b, 8, 0, 0, 0, 0, 0, 0, 3]

/-- The end of the stream: the checksum and the length, least significant byte first. -/
def trailer (crc : UInt32) (tot : ℕ) : List UInt8 :=
  (be32 crc).reverse ++ (be32 (UInt32.ofNat tot)).reverse

/-- What `gzip` makes of the answer of `deflate`, which wrote behind `head`. -/
def appendTrailer (z : Zlib) (outLen : ℕ) (head input : List UInt8) :
    Option (List UInt8 × ℕ) → ℤ × List UInt8
  | none => (-1, head)
  | some (out, total_in) =>
    if 8 ≤ outLen - head.length - out.length then
      let written := head ++ out ++ trailer (z.crc32 input) total_in
      (if 10 ≤ outLen then written.length else -1, written)
    else
      (-1, head ++ out)

/-- `GzipUtil::gzip` with zlib. -/
def gzip (z : Zlib) (outlen : ℤ) (inBuffer : List UInt8) (inlen : ℤ) :
    Exec (ℤ × List UInt8) := do
  let outLen := (outlen % 2 ^ 32).toNat
  let input ← slice inBuffer 0 (inlen % 2 ^ 32).toNat
  let head := if 10 ≤ outLen then gzipHeader else []
  .ok (z.appendTrailer outLen head input (z.deflate (outLen - head.length) input))

/-! ## What the stream announces -/

/-- Fewer than four bytes announce no length. -/
theorem origLength_of_short {rest : List UInt8} (h : rest.length < 4) :
    origLength rest rest.length = .ok (-1) := by
  rw [origLength, if_pos (by omega)]

/-- Four bytes and more announce what the last four say, as an `int`. -/
theorem origLength_append (front : List UInt8) (n : UInt32) :
    origLength (front ++ (be32 n).reverse) (front ++ (be32 n).reverse).length =
      .ok (int32 n.toNat) := by
  have hdrop : (front ++ (be32 n).reverse).drop
      (((front ++ (be32 n).reverse).length : ℤ) - 4).toNat = (be32 n).reverse := by
    rw [List.drop_left' (by simp)]
  have hlong : getLong (be32 n).reverse = .ok n := by
    simp [getLong, be32, byteAt, ofBE32_be32]
  rw [origLength, if_neg (by simp), hdrop, hlong, Exec.ok_bind]

/-- The last four bytes of a stream as an `int` that is not negative. -/
def announcedLength (rest : List UInt8) : Option ℕ :=
  match rest.reverse with
  | b₃ :: b₂ :: b₁ :: b₀ :: _ =>
    if b₃ < 0x80 then some (ofBE32 b₃ b₂ b₁ b₀).toNat else none
  | _ => none

/-- **The length announced is what the last four bytes say, or a negative number.** -/
theorem origLength_spec (rest : List UInt8) :
    (∃ n : ℕ, announcedLength rest = some n ∧ n < 2 ^ 31 ∧
      origLength rest rest.length = .ok (n : ℤ)) ∨
    (announcedLength rest = none ∧
      ∃ n, origLength rest rest.length = .ok n ∧ n < 0 ∧ -2 ^ 31 ≤ n) := by
  by_cases h : rest.length < 4
  · refine .inr ⟨?_, -1, origLength_of_short h, by decide, by decide⟩
    rw [announcedLength]
    split
    · rename_i hrest
      have := congrArg List.length hrest
      simp only [List.length_reverse, List.length_cons] at this
      omega
    · rfl
  · have hfour : 4 ≤ rest.reverse.length := by
      rw [List.length_reverse]
      omega
    obtain ⟨b₃, b₂, b₁, b₀, front, hfront⟩ := exists_eq_header hfour
    have hrest : rest = front.reverse ++ (be32 (ofBE32 b₃ b₂ b₁ b₀)).reverse := by
      rw [be32_ofBE32, ← List.reverse_append, ← List.reverse_eq_iff]
      exact hfront
    have horig : origLength rest rest.length = .ok (int32 (ofBE32 b₃ b₂ b₁ b₀).toNat) := by
      rw [hrest]
      exact origLength_append _ _
    have hn := (ofBE32 b₃ b₂ b₁ b₀).toNat_lt
    have htop : (ofBE32 b₃ b₂ b₁ b₀).toNat < 2 ^ 31 ↔ b₃ < 0x80 := by
      have h₂ := b₂.toNat_lt
      have h₁ := b₁.toNat_lt
      have h₀ := b₀.toNat_lt
      rw [toNat_ofBE32, UInt8.lt_iff_toNat_lt]
      change _ ↔ b₃.toNat < 128
      omega
    have hmod : (ofBE32 b₃ b₂ b₁ b₀).toNat % 2 ^ 32 = (ofBE32 b₃ b₂ b₁ b₀).toNat :=
      Nat.mod_eq_of_lt hn
    rw [announcedLength, hfront, horig]
    by_cases hsmall : b₃ < 0x80
    · refine .inl ⟨_, if_pos hsmall, htop.mpr hsmall, ?_⟩
      rw [int32, hmod, if_pos (htop.mpr hsmall)]
    · refine .inr ⟨if_neg hsmall, _, rfl, ?_⟩
      have hbig : ¬(ofBE32 b₃ b₂ b₁ b₀).toNat < 2 ^ 31 := fun h => hsmall (htop.mp h)
      rw [int32, hmod, if_neg hbig]
      omega

end Zlib

/-- The compression of a build: with zlib, or without it. -/
def GunzipUtil.ofZlib : Option Zlib → GunzipUtil
  | none => stub
  | some z =>
    { implemented := true
      check_header := Zlib.check_header
      origLength := Zlib.origLength
      gunzip := z.gunzip
      gzip := z.gzip }

namespace GunzipUtil

/-- The length a build takes a stream to announce, if it is not a negative one. -/
def announcedLength : Option Zlib → List UInt8 → Option ℕ
  | none, _ => none
  | some _, rest => Zlib.announcedLength rest

theorem ofZlib_origLength (z : Option Zlib) (rest : List UInt8) :
    (∃ n : ℕ, announcedLength z rest = some n ∧ n < 2 ^ 31 ∧
      (ofZlib z).origLength rest rest.length = .ok (n : ℤ)) ∨
    (announcedLength z rest = none ∧
      ∃ n, (ofZlib z).origLength rest rest.length = .ok n ∧ n < 0 ∧ -2 ^ 31 ≤ n) := by
  cases z with
  | none => exact .inr ⟨rfl, -1, rfl, by decide, by decide⟩
  | some z => exact Zlib.origLength_spec rest

end GunzipUtil

end CppCore.Ngp
