import CppCore.Lib.Crc
import CppCore.Lib.Records

/-!
# The checksum of a packet

## Main definitions

* `staticrcMap` — the table of remainders.
* `calcCrc32` — the checksum of a byte array.
* `generator` — the polynomial behind the table.
* `toBitVec_calcCrc32` — the checksum is the remainder of the bytes, but for a summand that
  depends on their number only.
-/

namespace CppCore.Utils

open Lib

/-- `crc32::staticrcMap`. -/
def staticrcMap : List UInt32 := [
    0x00000000, 0x04c11db7, 0x09823b6e, 0x0d4326d9, 0x130476dc, 0x17c56b6b, 0x1a864db2,
    0x1e475005, 0x2608edb8, 0x22c9f00f, 0x2f8ad6d6, 0x2b4bcb61, 0x350c9b64, 0x31cd86d3,
    0x3c8ea00a, 0x384fbdbd, 0x4c11db70, 0x48d0c6c7, 0x4593e01e, 0x4152fda9, 0x5f15adac,
    0x5bd4b01b, 0x569796c2, 0x52568b75, 0x6a1936c8, 0x6ed82b7f, 0x639b0da6, 0x675a1011,
    0x791d4014, 0x7ddc5da3, 0x709f7b7a, 0x745e66cd, 0x9823b6e0, 0x9ce2ab57, 0x91a18d8e,
    0x95609039, 0x8b27c03c, 0x8fe6dd8b, 0x82a5fb52, 0x8664e6e5, 0xbe2b5b58, 0xbaea46ef,
    0xb7a96036, 0xb3687d81, 0xad2f2d84, 0xa9ee3033, 0xa4ad16ea, 0xa06c0b5d, 0xd4326d90,
    0xd0f37027, 0xddb056fe, 0xd9714b49, 0xc7361b4c, 0xc3f706fb, 0xceb42022, 0xca753d95,
    0xf23a8028, 0xf6fb9d9f, 0xfbb8bb46, 0xff79a6f1, 0xe13ef6f4, 0xe5ffeb43, 0xe8bccd9a,
    0xec7dd02d, 0x34867077, 0x30476dc0, 0x3d044b19, 0x39c556ae, 0x278206ab, 0x23431b1c,
    0x2e003dc5, 0x2ac12072, 0x128e9dcf, 0x164f8078, 0x1b0ca6a1, 0x1fcdbb16, 0x018aeb13,
    0x054bf6a4, 0x0808d07d, 0x0cc9cdca, 0x7897ab07, 0x7c56b6b0, 0x71159069, 0x75d48dde,
    0x6b93dddb, 0x6f52c06c, 0x6211e6b5, 0x66d0fb02, 0x5e9f46bf, 0x5a5e5b08, 0x571d7dd1,
    0x53dc6066, 0x4d9b3063, 0x495a2dd4, 0x44190b0d, 0x40d816ba, 0xaca5c697, 0xa864db20,
    0xa527fdf9, 0xa1e6e04e, 0xbfa1b04b, 0xbb60adfc, 0xb6238b25, 0xb2e29692, 0x8aad2b2f,
    0x8e6c3698, 0x832f1041, 0x87ee0df6, 0x99a95df3, 0x9d684044, 0x902b669d, 0x94ea7b2a,
    0xe0b41de7, 0xe4750050, 0xe9362689, 0xedf73b3e, 0xf3b06b3b, 0xf771768c, 0xfa325055,
    0xfef34de2, 0xc6bcf05f, 0xc27dede8, 0xcf3ecb31, 0xcbffd686, 0xd5b88683, 0xd1799b34,
    0xdc3abded, 0xd8fba05a, 0x690ce0ee, 0x6dcdfd59, 0x608edb80, 0x644fc637, 0x7a089632,
    0x7ec98b85, 0x738aad5c, 0x774bb0eb, 0x4f040d56, 0x4bc510e1, 0x46863638, 0x42472b8f,
    0x5c007b8a, 0x58c1663d, 0x558240e4, 0x51435d53, 0x251d3b9e, 0x21dc2629, 0x2c9f00f0,
    0x285e1d47, 0x36194d42, 0x32d850f5, 0x3f9b762c, 0x3b5a6b9b, 0x0315d626, 0x07d4cb91,
    0x0a97ed48, 0x0e56f0ff, 0x1011a0fa, 0x14d0bd4d, 0x19939b94, 0x1d528623, 0xf12f560e,
    0xf5ee4bb9, 0xf8ad6d60, 0xfc6c70d7, 0xe22b20d2, 0xe6ea3d65, 0xeba91bbc, 0xef68060b,
    0xd727bbb6, 0xd3e6a601, 0xdea580d8, 0xda649d6f, 0xc423cd6a, 0xc0e2d0dd, 0xcda1f604,
    0xc960ebb3, 0xbd3e8d7e, 0xb9ff90c9, 0xb4bcb610, 0xb07daba7, 0xae3afba2, 0xaafbe615,
    0xa7b8c0cc, 0xa379dd7b, 0x9b3660c6, 0x9ff77d71, 0x92b45ba8, 0x9675461f, 0x8832161a,
    0x8cf30bad, 0x81b02d74, 0x857130c3, 0x5d8a9099, 0x594b8d2e, 0x5408abf7, 0x50c9b640,
    0x4e8ee645, 0x4a4ffbf2, 0x470cdd2b, 0x43cdc09c, 0x7b827d21, 0x7f436096, 0x7200464f,
    0x76c15bf8, 0x68860bfd, 0x6c47164a, 0x61043093, 0x65c52d24, 0x119b4be9, 0x155a565e,
    0x18197087, 0x1cd86d30, 0x029f3d35, 0x065e2082, 0x0b1d065b, 0x0fdc1bec, 0x3793a651,
    0x3352bbe6, 0x3e119d3f, 0x3ad08088, 0x2497d08d, 0x2056cd3a, 0x2d15ebe3, 0x29d4f654,
    0xc5a92679, 0xc1683bce, 0xcc2b1d17, 0xc8ea00a0, 0xd6ad50a5, 0xd26c4d12, 0xdf2f6bcb,
    0xdbee767c, 0xe3a1cbc1, 0xe760d676, 0xea23f0af, 0xeee2ed18, 0xf0a5bd1d, 0xf464a0aa,
    0xf9278673, 0xfde69bc4, 0x89b8fd09, 0x8d79e0be, 0x803ac667, 0x84fbdbd0, 0x9abc8bd5,
    0x9e7d9662, 0x933eb0bb, 0x97ffad0c, 0xafb010b1, 0xab710d06, 0xa6322bdf, 0xa2f33668,
    0xbcb4666d, 0xb8757bda, 0xb5365d03, 0xb1f740b4]

/-- One byte of the loop in `crc32::calcCrc32`. -/
def crcStep (crc : UInt32) (b : UInt8) : UInt32 :=
  ((crc <<< 8) ||| b.toUInt32) ^^^ staticrcMap.getD (crc >>> 24).toNat 0

/-- `crc32::calcCrc32` of the whole of `buf`: a checksum of the bytes behind the first four,
started with those; fewer than four bytes leave the start value. -/
def calcCrc32 (buf : List UInt8) (crc : UInt32 := 0) : UInt32 :=
  match buf with
  | b₀ :: b₁ :: b₂ :: b₃ :: rest => ~~~ (rest.foldl crcStep (~~~ ofBE32 b₀ b₁ b₂ b₃))
  | _ => crc

/-! ## The polynomial -/

/-- The polynomial of the table, without its highest power. -/
def generator : BitVec 32 := 0x04c11db7#32

/-- The entries of the table are the remainders of its indices. -/
theorem toBitVec_staticrcMap {k : ℕ} (hk : k < 256) :
    (staticrcMap.getD k 0).toBitVec =
      remainder generator (BitVec.ofNat 32 k <<< 24) (List.replicate 8 false) := by
  have hall : ∀ k : Fin 256, (staticrcMap.getD k 0).toBitVec =
      remainder generator (BitVec.ofNat 32 k <<< 24) (List.replicate 8 false) := by
    decide +kernel
  exact hall ⟨k, hk⟩

/-- A word with nothing in its highest byte, and a byte behind it. -/
private theorem remainder_byteBits (x : BitVec 32) (b : UInt8) :
    remainder generator (x <<< 8 >>> 8) (byteBits b) = x <<< 8 ||| b.toBitVec.setWidth 32 := by
  have hlow : ∀ i, 32 ≤ i + (byteBits b).length → (x <<< 8 >>> 8).getLsbD i = false := by
    intro i hi
    rw [length_byteBits] at hi
    rw [BitVec.getLsbD_ushiftRight, BitVec.getLsbD_of_ge _ _ (by omega)]
  apply BitVec.eq_of_getLsbD_eq
  intro i hi
  rw [getLsbD_remainder generator (by simp) hlow hi, length_byteBits, BitVec.getLsbD_or,
    BitVec.getLsbD_shiftLeft, BitVec.getLsbD_setWidth]
  by_cases hbyte : i < 8
  · rw [if_pos hbyte, getD_reverse_byteBits]
    simp [hbyte, hi]
  · rw [if_neg hbyte, BitVec.getLsbD_ushiftRight, BitVec.getLsbD_shiftLeft,
      BitVec.getLsbD_of_ge b.toBitVec i (by omega)]
    simp only [hbyte, hi, decide_true, decide_false, Bool.not_false, Bool.true_and, Bool.or_false,
      Bool.and_false]
    rw [decide_eq_true (by omega), decide_eq_false (by omega)]
    simp

/-- A word is its highest byte and the rest. -/
private theorem eq_low_xor_high (x : BitVec 32) : x = (x <<< 8 >>> 8) ^^^ (x >>> 24 <<< 24) := by
  apply BitVec.eq_of_getLsbD_eq
  intro i hi
  rw [BitVec.getLsbD_xor, BitVec.getLsbD_ushiftRight, BitVec.getLsbD_shiftLeft,
    BitVec.getLsbD_shiftLeft, BitVec.getLsbD_ushiftRight]
  by_cases hlow : i < 24
  · have hin : 8 + i < 32 := by omega
    simp [hlow, hin]
  · have hout : ¬8 + i < 32 := by omega
    have hback : 24 + (i - 24) = i := by omega
    simp [hlow, hi, hout, hback]

/-- **One step of the loop shifts in the bits of a byte.** -/
theorem toBitVec_crcStep (crc : UInt32) (b : UInt8) :
    (crcStep crc b).toBitVec = remainder generator crc.toBitVec (byteBits b) := by
  have hindex : (crc >>> 24).toNat < 256 := by
    have := crc.toNat_lt
    simp [Nat.shiftRight_eq_div_pow]
    omega
  have hhigh : BitVec.ofNat 32 (crc >>> 24).toNat = crc.toBitVec >>> 24 := by
    apply BitVec.eq_of_toNat_eq
    rw [BitVec.toNat_ofNat, Nat.mod_eq_of_lt (by omega)]
    rfl
  conv_rhs => rw [eq_low_xor_high crc.toBitVec, remainder_xor, remainder_byteBits, length_byteBits,
    ← hhigh, ← toBitVec_staticrcMap hindex]
  rfl

theorem toBitVec_foldl_crcStep (crc : UInt32) (bytes : List UInt8) :
    (bytes.foldl crcStep crc).toBitVec = remainder generator crc.toBitVec (bitsOf bytes) := by
  induction bytes generalizing crc with
  | nil => rfl
  | cons b bytes ih =>
    rw [List.foldl_cons, ih, bitsOf_cons, remainder_append, toBitVec_crcStep]

/-- As long as nothing falls out of the word, a step appends the byte. -/
private theorem toNat_crcStep {crc : UInt32} (hcrc : crc.toNat < 2 ^ 24) (b : UInt8) :
    (crcStep crc b).toNat = crc.toNat * 256 + b.toNat := by
  have hindex : (crc >>> 24).toNat = 0 := by
    simp [Nat.shiftRight_eq_div_pow]
    omega
  have hshift : (crc <<< 8).toNat = crc.toNat <<< 8 := by
    rw [UInt32.toNat_shiftLeft, Nat.shiftLeft_eq, Nat.shiftLeft_eq]
    change crc.toNat * 256 % 4294967296 = crc.toNat * 256
    omega
  have hb : b.toNat < 2 ^ 8 := b.toNat_lt
  rw [crcStep, hindex, show staticrcMap.getD 0 0 = 0 from rfl, UInt32.xor_zero, UInt32.toNat_or,
    hshift, UInt8.toNat_toUInt32, ← Nat.shiftLeft_add_eq_or_of_lt hb, Nat.shiftLeft_eq]

/-- Four bytes are the word they assemble to. -/
theorem remainder_four (b₀ b₁ b₂ b₃ : UInt8) :
    remainder generator 0#32 (bitsOf [b₀, b₁, b₂, b₃]) = (ofBE32 b₀ b₁ b₂ b₃).toBitVec := by
  have h₀ := b₀.toNat_lt
  have h₁ := b₁.toNat_lt
  have h₂ := b₂.toNat_lt
  have hsteps := toBitVec_foldl_crcStep 0 [b₀, b₁, b₂, b₃]
  simp only [List.foldl_cons, List.foldl_nil] at hsteps
  have e₀ := toNat_crcStep (show (0 : UInt32).toNat < 2 ^ 24 by decide) b₀
  generalize crcStep 0 b₀ = x₀ at hsteps e₀
  have e₁ := toNat_crcStep (show x₀.toNat < 2 ^ 24 by rw [e₀]; simp; omega) b₁
  generalize crcStep x₀ b₁ = x₁ at hsteps e₁
  rw [UInt32.toNat_zero] at e₀
  have e₂ := toNat_crcStep (show x₁.toNat < 2 ^ 24 by omega) b₂
  generalize crcStep x₁ b₂ = x₂ at hsteps e₂
  have e₃ := toNat_crcStep (show x₂.toNat < 2 ^ 24 by omega) b₃
  generalize crcStep x₂ b₃ = x₃ at hsteps e₃
  have hword : x₃ = ofBE32 b₀ b₁ b₂ b₃ := by
    apply UInt32.toNat_inj.mp
    have h := toNat_ofBE32 b₀ b₁ b₂ b₃
    omega
  rw [← hword, hsteps]
  rfl

/-- The bytes of a word are the word. -/
theorem remainder_be32 (x : UInt32) :
    remainder generator 0#32 (bitsOf (be32 x)) = x.toBitVec := by
  rw [be32, remainder_four, ofBE32_be32]

/-- What the complement of the first four bytes and of the result adds to the checksum of `n`
bytes. -/
def complement (n : ℕ) : BitVec 32 :=
  ~~~ (remainder generator (BitVec.allOnes 32) (List.replicate (8 * (n - 4)) false))

/-- **The checksum is the remainder of the bytes**, but for a summand that depends on their
number only. -/
theorem toBitVec_calcCrc32 {bytes : List UInt8} (h : 4 ≤ bytes.length) :
    (calcCrc32 bytes).toBitVec =
      remainder generator 0#32 (bitsOf bytes) ^^^ complement bytes.length := by
  obtain ⟨b₀, b₁, b₂, b₃, rest, rfl⟩ := exists_eq_header h
  have hstart : (~~~ ofBE32 b₀ b₁ b₂ b₃).toBitVec =
      remainder generator 0#32 (bitsOf [b₀, b₁, b₂, b₃]) ^^^ BitVec.allOnes 32 := by
    rw [remainder_four, UInt32.toBitVec_not, BitVec.xor_allOnes]
  have hrest : 8 * ((b₀ :: b₁ :: b₂ :: b₃ :: rest).length - 4) = (bitsOf rest).length := by
    simp
  rw [complement, hrest, calcCrc32, UInt32.toBitVec_not, toBitVec_foldl_crcStep, hstart,
    remainder_xor, ← remainder_append, ← bitsOf_append, BitVec.not_xor_right]
  rfl

/-- **A burst is detected**: an error within 32 bits of some bytes with their checksum behind
them leaves bytes which do not have the checksum behind them. -/
theorem calcCrc32_ne_of_burst {bytes error errorCrc : List UInt8} {b₀ b₁ b₂ b₃ : UInt8}
    (hbytes : 4 ≤ bytes.length) (herror : error.length = bytes.length)
    (hcrc : List.zipWith (· ^^^ ·) (be32 (calcCrc32 bytes)) errorCrc = [b₀, b₁, b₂, b₃])
    (hlen : errorCrc.length = 4) (hburst : IsBurst 32 (bitsOf (error ++ errorCrc))) :
    calcCrc32 (List.zipWith (· ^^^ ·) bytes error) ≠ ofBE32 b₀ b₁ b₂ b₃ := by
  have hzip : (List.zipWith (· ^^^ ·) bytes error).length = bytes.length := by
    rw [List.length_zipWith, herror, Nat.min_self]
  have hmessage : remainder generator 0#32 (bitsOf (List.zipWith (· ^^^ ·) bytes error)) =
      remainder generator 0#32 (bitsOf bytes) ^^^ remainder generator 0#32 (bitsOf error) := by
    have h := remainder_zipWith_xor generator 0#32 0#32
      (by rw [length_bitsOf, length_bitsOf, herror] :
        (bitsOf bytes).length = (bitsOf error).length)
    rwa [BitVec.xor_self, ← bitsOf_zipWith_xor herror.symm] at h
  have hcode : (ofBE32 b₀ b₁ b₂ b₃).toBitVec =
      (calcCrc32 bytes).toBitVec ^^^ remainder generator 0#32 (bitsOf errorCrc) := by
    have h := remainder_zipWith_xor generator 0#32 0#32
      (by rw [length_bitsOf, length_bitsOf, hlen, length_be32] :
        (bitsOf (be32 (calcCrc32 bytes))).length = (bitsOf errorCrc).length)
    rwa [BitVec.xor_self, ← bitsOf_zipWith_xor (by rw [hlen, length_be32]), hcrc,
      remainder_four, remainder_be32] at h
  have hne := remainder_ne_of_burst generator rfl
    (by rw [length_bitsOf, hlen] : (bitsOf errorCrc).length = 32)
    (by rwa [← bitsOf_append] : IsBurst 32 (bitsOf error ++ bitsOf errorCrc))
  intro heq
  apply hne
  have hword := congrArg UInt32.toBitVec heq
  rw [toBitVec_calcCrc32 (by omega), hmessage, hzip, hcode, toBitVec_calcCrc32 hbytes] at hword
  have hswap : ∀ x y z : BitVec 32, x ^^^ y ^^^ z = x ^^^ z ^^^ y := by
    intro x y z
    rw [BitVec.xor_assoc, BitVec.xor_comm y, ← BitVec.xor_assoc]
  rw [hswap] at hword
  exact BitVec.xor_right_inj _ |>.mp hword

end CppCore.Utils
