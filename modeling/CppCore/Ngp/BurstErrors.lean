import CppCore.Ngp.NavPacket

/-!
# Errors in the transmission of a packet

The checksum at the end of a packet is that of the bytes before it, and both are encrypted
together behind the clear start.  The keystream depends on the position only, so that an error in
the transmitted bytes is the same error in the decrypted ones.

## Main definitions

* `NavPacket.exists_checked` — what `writeToInternal` encrypts.
* `NavPacket.burst_detected` — the receiver detects every short burst.
-/

namespace CppCore.Ngp

open Lib Utils

/-- Decrypting bytes with an error leaves the error. -/
theorem wf_ngp_encrypt_zipWith {data out error : List UInt8} (hdata : data.length < 2 ^ 32)
    (hout : wf_ngp_encrypt data 10 (sub32 data.length 10) = .ok out)
    (herror : error.length = out.length) :
    out.length = data.length ∧
      wf_ngp_encrypt (List.zipWith (· ^^^ ·) out error) 10 (sub32 out.length 10) =
        .ok (List.zipWith (· ^^^ ·) data error) := by
  obtain ⟨hten, rfl⟩ := (wf_ngp_encrypt_eq_ok hdata (by decide)).mp hout
  have hclear : (data.take 10).length = 10 := by
    rw [List.length_take, Nat.min_eq_left hten]
  have hlen : (data.take 10 ++ keyed (data.drop 10)).length = data.length := by
    rw [List.length_append, length_keyed, ← List.length_append, List.take_append_drop]
  have hzip : (List.zipWith (· ^^^ ·) (data.take 10 ++ keyed (data.drop 10)) error).length =
      (data.take 10 ++ keyed (data.drop 10)).length := by
    rw [List.length_zipWith, herror, Nat.min_self]
  refine ⟨hlen, ?_⟩
  rw [← hzip]
  refine (wf_ngp_encrypt_eq_ok (by omega) (by decide)).mpr ⟨by omega, ?_⟩
  rw [List.take_zipWith, List.drop_zipWith, List.take_left' hclear, List.drop_left' hclear, keyed,
    keyed, xorStream_zipWith, xorStream_xorStream, ← List.take_zipWith, ← List.drop_zipWith,
    List.take_append_drop]

namespace NavPacket

/-- What is encrypted are some bytes with their checksum behind them. -/
theorem exists_checked {zip : GunzipUtil} {p : NavPacket}
    {writeSpecificHeaderPart : List UInt8 → Exec (List UInt8)} {buff bytes : List UInt8}
    {params : NParamBlock}
    (h : p.writeToInternal zip writeSpecificHeaderPart buff params = .ok bytes) :
    ∃ checked, (checked ++ be32 (calcCrc32 checked)).length ≤ vectorMaxSize ∧
      wf_ngp_encrypt (checked ++ be32 (calcCrc32 checked)) 10
        (sub32 (checked ++ be32 (calcCrc32 checked)).length 10) = .ok bytes := by
  obtain ⟨front, -, h⟩ := Exec.bind_eq_ok.mp h
  obtain ⟨back, -, h⟩ := Exec.bind_eq_ok.mp h
  simp only [NParam.addUint32ToByteVector_eq] at h
  by_cases hlarge : vectorMaxSize < (writeLength back ++ be32 (calcCrc32 (writeLength back))).length
  · rw [if_pos hlarge] at h
    cases h
  · rw [if_neg hlarge] at h
    exact ⟨_, not_lt.mp hlarge, h⟩

/-- **Every short burst is detected.**  When an error within 32 bits hits an encoding anywhere,
the last four of the decrypted bytes are not the checksum of the others. -/
theorem burst_detected (zip : GunzipUtil) (p : NavPacket)
    (writeSpecificHeaderPart : List UInt8 → Exec (List UInt8)) (buff : List UInt8)
    (params : NParamBlock) {bytes error : List UInt8}
    (hwrite : p.writeToInternal zip writeSpecificHeaderPart buff params = .ok bytes)
    (herror : error.length = bytes.length) (hburst : IsBurst 32 (bitsOf error)) :
    ∃ front b₀ b₁ b₂ b₃,
      wf_ngp_encrypt (List.zipWith (· ^^^ ·) bytes error) 10 (sub32 bytes.length 10) =
        .ok (front ++ [b₀, b₁, b₂, b₃]) ∧
      calcCrc32 front ≠ ofBE32 b₀ b₁ b₂ b₃ := by
  obtain ⟨checked, hmax, hencrypt⟩ := exists_checked hwrite
  have hbound : (checked ++ be32 (calcCrc32 checked)).length < 2 ^ 32 := by
    simp only [vectorMaxSize, maxObject] at hmax
    omega
  have hten := ((wf_ngp_encrypt_eq_ok hbound (by decide)).mp hencrypt).1
  obtain ⟨hlen, hdecrypt⟩ := wf_ngp_encrypt_zipWith hbound hencrypt herror
  rw [List.length_append, length_be32] at hlen hten
  -- the parts of the error in the checked bytes and in the checksum
  have hfront : (error.take checked.length).length = checked.length := by
    rw [List.length_take]
    omega
  have hback : (error.drop checked.length).length = 4 := by
    rw [List.length_drop]
    omega
  have hsplit : List.zipWith (· ^^^ ·) (checked ++ be32 (calcCrc32 checked)) error =
      List.zipWith (· ^^^ ·) checked (error.take checked.length) ++
        List.zipWith (· ^^^ ·) (be32 (calcCrc32 checked)) (error.drop checked.length) := by
    rw [← List.zipWith_append hfront.symm, List.take_append_drop]
  obtain ⟨e₀, e₁, e₂, e₃, tail, herrors⟩ := exists_eq_header hback.ge
  obtain rfl : tail = [] := List.length_eq_zero_iff.mp (by simpa [herrors] using hback)
  obtain ⟨b₀, b₁, b₂, b₃, hcrc⟩ : ∃ b₀ b₁ b₂ b₃, List.zipWith (· ^^^ ·)
      (be32 (calcCrc32 checked)) (error.drop checked.length) = [b₀, b₁, b₂, b₃] := by
    rw [herrors]
    exact ⟨_, _, _, _, rfl⟩
  refine ⟨_, b₀, b₁, b₂, b₃, by rw [hdecrypt, hsplit, hcrc], ?_⟩
  refine calcCrc32_ne_of_burst (by omega) hfront hcrc hback ?_
  rwa [List.take_append_drop]

/-- A packet without params. -/
def plainPacket : NavPacket := new 0xb 0x2e 7 1

/-- An error of nine bits across the border of the encrypted part. -/
theorem burst_detected_border :
    ∃ front b₀ b₁ b₂ b₃,
      wf_ngp_encrypt (List.zipWith (· ^^^ ·)
          [0x02, 0, 0, 0, 14, 0xb, 0, 0x2e, 7, 1, 128, 89, 224, 236]
          [0, 0, 0, 0, 0, 0, 0, 0, 0, 0x01, 0x01, 0, 0, 0]) 10 4 =
        .ok (front ++ [b₀, b₁, b₂, b₃]) ∧
      calcCrc32 front ≠ ofBE32 b₀ b₁ b₂ b₃ := by
  have hwrite : plainPacket.writeToInternal GunzipUtil.stub (appends []) [] NParamBlock.empty =
      .ok [0x02, 0, 0, 0, 14, 0xb, 0, 0x2e, 7, 1, 128, 89, 224, 236] := by decide
  exact burst_detected GunzipUtil.stub plainPacket (appends []) [] NParamBlock.empty hwrite
    rfl ⟨79, [true, false, false, false, false, false, false, false, true], 24, by decide,
      by decide, by decide⟩

end NavPacket

end CppCore.Ngp
