import Mathlib.Data.Nat.Bitwise

/-!
# Words as bytes

Sixteen- and thirty-two-bit words split into bytes and put together again: by shifts, most
significant byte first, and by reinterpreting memory in the byte order of the host followed
by the host's `ntohs` or `ntohl`.

## Main definitions

* `be16`, `be32` — the bytes of a word, most significant first.
* `ofBE16`, `ofBE32` — a word assembled by shifts; the inverse of `be16` and `be32`.
* `Endian`, `load16`, `load32` — a word as the host reads it from memory.
* `ntohs`, `ntohl` — network to host order; `ntohs_load16` and `ntohl_load32` cancel the load.
-/

namespace CppCore.Lib

/-! ## Assembling by shifts -/

/-- The two bytes of `x`, most significant first. -/
def be16 (x : UInt16) : List UInt8 := [(x >>> 8).toUInt8, x.toUInt8]

/-- The four bytes of `x`, most significant first. -/
def be32 (x : UInt32) : List UInt8 :=
  [(x >>> 24).toUInt8, (x >>> 16).toUInt8, (x >>> 8).toUInt8, x.toUInt8]

/-- The word with bytes `a`, `b`, most significant first. -/
def ofBE16 (a b : UInt8) : UInt16 := (a.toUInt16 <<< 8) ||| b.toUInt16

/-- The word with bytes `a`, `b`, `c`, `d`, most significant first. -/
def ofBE32 (a b c d : UInt8) : UInt32 :=
  (a.toUInt32 <<< 24) ||| (b.toUInt32 <<< 16) ||| (c.toUInt32 <<< 8) ||| d.toUInt32

@[simp] theorem length_be16 (x : UInt16) : (be16 x).length = 2 := rfl
@[simp] theorem length_be32 (x : UInt32) : (be32 x).length = 4 := rfl

/-- A disjunction whose right side lies below the lowest bit of its left side is a sum. -/
private theorem or_eq_add (hi k n : ℕ) {lo : ℕ} (hn : 2 ^ k = n) (h : lo < n) :
    hi * n ||| lo = hi * n + lo := by
  subst hn
  rw [← Nat.shiftLeft_eq, Nat.shiftLeft_add_eq_or_of_lt h]

private theorem toNat_shl16 (a : UInt8) : (a.toUInt16 <<< 8).toNat = a.toNat * 256 := by
  have ha := a.toNat_lt
  rw [UInt16.toNat_shiftLeft, UInt8.toNat_toUInt16, Nat.shiftLeft_eq]
  change a.toNat * 256 % 65536 = _
  omega

private theorem toNat_shl32 (a : UInt8) :
    (a.toUInt32 <<< 24).toNat = a.toNat * 16777216 ∧
      (a.toUInt32 <<< 16).toNat = a.toNat * 65536 ∧ (a.toUInt32 <<< 8).toNat = a.toNat * 256 := by
  have ha := a.toNat_lt
  refine ⟨?_, ?_, ?_⟩ <;> rw [UInt32.toNat_shiftLeft, UInt8.toNat_toUInt32, Nat.shiftLeft_eq]
  · change a.toNat * 16777216 % 4294967296 = _
    omega
  · change a.toNat * 65536 % 4294967296 = _
    omega
  · change a.toNat * 256 % 4294967296 = _
    omega

theorem toNat_ofBE16 (a b : UInt8) : (ofBE16 a b).toNat = a.toNat * 256 + b.toNat := by
  rw [ofBE16, UInt16.toNat_or, toNat_shl16, UInt8.toNat_toUInt16]
  exact or_eq_add _ 8 256 rfl b.toNat_lt

theorem toNat_ofBE32 (a b c d : UInt8) :
    (ofBE32 a b c d).toNat =
      a.toNat * 16777216 + b.toNat * 65536 + c.toNat * 256 + d.toNat := by
  have hb := b.toNat_lt
  have hc := c.toNat_lt
  have hd := d.toNat_lt
  obtain ⟨ha24, -, -⟩ := toNat_shl32 a
  obtain ⟨-, hb16, -⟩ := toNat_shl32 b
  obtain ⟨-, -, hc8⟩ := toNat_shl32 c
  simp only [ofBE32, UInt32.toNat_or, ha24, hb16, hc8, UInt8.toNat_toUInt32]
  have hab : a.toNat * 16777216 ||| b.toNat * 65536 = (a.toNat * 256 + b.toNat) * 65536 := by
    rw [or_eq_add _ 24 16777216 rfl (by omega)]
    omega
  have habc : (a.toNat * 256 + b.toNat) * 65536 ||| c.toNat * 256 =
      ((a.toNat * 256 + b.toNat) * 256 + c.toNat) * 256 := by
    rw [or_eq_add _ 16 65536 rfl (by omega)]
    omega
  rw [hab, habc, or_eq_add _ 8 256 rfl (by omega)]
  omega

/-- **A sixteen-bit word is the one its bytes assemble to.** -/
theorem ofBE16_be16 (x : UInt16) : ofBE16 (x >>> 8).toUInt8 x.toUInt8 = x := by
  apply UInt16.toNat_inj.mp
  have := x.toNat_lt
  rw [toNat_ofBE16]
  simp [Nat.shiftRight_eq_div_pow]
  omega

/-- **A thirty-two-bit word is the one its bytes assemble to.** -/
theorem ofBE32_be32 (x : UInt32) :
    ofBE32 (x >>> 24).toUInt8 (x >>> 16).toUInt8 (x >>> 8).toUInt8 x.toUInt8 = x := by
  apply UInt32.toNat_inj.mp
  have := x.toNat_lt
  rw [toNat_ofBE32]
  simp [Nat.shiftRight_eq_div_pow]
  omega

@[simp] theorem be16_ofBE16 (a b : UInt8) : be16 (ofBE16 a b) = [a, b] := by
  have ha := a.toNat_lt
  have hb := b.toNat_lt
  have h₁ : (ofBE16 a b >>> 8).toUInt8 = a := by
    apply UInt8.toNat_inj.mp
    simp [Nat.shiftRight_eq_div_pow, toNat_ofBE16]
    omega
  have h₂ : (ofBE16 a b).toUInt8 = b := by
    apply UInt8.toNat_inj.mp
    simp [toNat_ofBE16]
  rw [be16, h₁, h₂]

@[simp] theorem be32_ofBE32 (a b c d : UInt8) : be32 (ofBE32 a b c d) = [a, b, c, d] := by
  have ha := a.toNat_lt
  have hb := b.toNat_lt
  have hc := c.toNat_lt
  have hd := d.toNat_lt
  simp only [be32, List.cons.injEq, and_true]
  refine ⟨?_, ?_, ?_, ?_⟩ <;> apply UInt8.toNat_inj.mp <;>
    simp [Nat.shiftRight_eq_div_pow, toNat_ofBE32] <;> omega

/-! ## The byte order of the host -/

/-- The byte order in which the host keeps a word in memory. -/
inductive Endian
  /-- Least significant byte at the lowest address. -/
  | little
  /-- Most significant byte at the lowest address. -/
  | big
  deriving DecidableEq, Repr

/-- The word a host reads from memory holding `a`, `b` at increasing addresses. -/
def load16 : Endian → UInt8 → UInt8 → UInt16
  | .big, a, b => ofBE16 a b
  | .little, a, b => ofBE16 b a

/-- The word a host reads from memory holding `a`, `b`, `c`, `d` at increasing addresses. -/
def load32 : Endian → UInt8 → UInt8 → UInt8 → UInt8 → UInt32
  | .big, a, b, c, d => ofBE32 a b c d
  | .little, a, b, c, d => ofBE32 d c b a

/-- Network to host order, sixteen bits: the identity or a swap of the two bytes. -/
def ntohs : Endian → UInt16 → UInt16
  | .big, x => x
  | .little, x => ofBE16 x.toUInt8 (x >>> 8).toUInt8

/-- Network to host order, thirty-two bits: the identity or a reversal of the four bytes. -/
def ntohl : Endian → UInt32 → UInt32
  | .big, x => x
  | .little, x => ofBE32 x.toUInt8 (x >>> 8).toUInt8 (x >>> 16).toUInt8 (x >>> 24).toUInt8

/-- On every host, `ntohs` of what memory holds is the word in network order. -/
@[simp] theorem ntohs_load16 (e : Endian) (a b : UInt8) :
    ntohs e (load16 e a b) = ofBE16 a b := by
  cases e with
  | big => rfl
  | little =>
    have h := be16_ofBE16 b a
    simp only [be16, List.cons.injEq, and_true] at h
    simp only [ntohs, load16, h.1, h.2]

/-- On every host, `ntohl` of what memory holds is the word in network order. -/
@[simp] theorem ntohl_load32 (e : Endian) (a b c d : UInt8) :
    ntohl e (load32 e a b c d) = ofBE32 a b c d := by
  cases e with
  | big => rfl
  | little =>
    have h := be32_ofBE32 d c b a
    simp only [be32, List.cons.injEq, and_true] at h
    simp only [ntohl, load32, h.1, h.2.1, h.2.2.1, h.2.2.2]

/-- A word is what its bytes say. -/
theorem be32_inj {x y : UInt32} : be32 x = be32 y ↔ x = y := by
  refine ⟨fun h => ?_, congrArg be32⟩
  simp only [be32, List.cons.injEq, and_true] at h
  obtain ⟨h₃, h₂, h₁, h₀⟩ := h
  rw [← ofBE32_be32 x, ← ofBE32_be32 y, h₃, h₂, h₁, h₀]

/-- The conversion leaves alone, on a little-endian host, the words that read the same from both
ends. -/
theorem ntohl_eq_self {e : Endian} {x : UInt32} :
    ntohl e x = x ↔ e = .big ∨ (be32 x).reverse = be32 x := by
  cases e with
  | big => simp [ntohl]
  | little =>
    have hrev : be32 (ntohl .little x) = (be32 x).reverse := be32_ofBE32 _ _ _ _
    rw [← be32_inj, hrev]
    simp

end CppCore.Lib
