import Mathlib.Algebra.GroupWithZero.Nat
import Mathlib.Algebra.Order.Group.Nat
import Mathlib.Algebra.Order.Sub.Basic
import Lox.Decimal.Basic

/-!
# Floats by their bits

The floats that a decimal reads as are those whose sign bit is clear and that are numbers: their bits
are the naturals up to those of infinity. Such a float has exactly the bits that it was made from,
and its bits tell whether it is infinite.
-/

namespace Lox

open Float.Model Float.Model.UnpackedFloat

/-! ## Taking bits apart -/

section Parts

variable (b : BitVec Format.binary64.numBits)

theorem toNat_unpackMantissa : (unpackMantissa b).toNat = b.toNat % leadingBit := by
  simp [unpackMantissa, leadingBit]

theorem toNat_unpackExponent : (unpackExponent b).toNat = b.toNat / leadingBit % 2048 := by
  simp [unpackExponent, leadingBit, Nat.shiftRight_eq_div_pow]

theorem unpackExponent_ne {exponent : BitVec 11}
    (hne : b.toNat / leadingBit % 2048 ≠ exponent.toNat) : unpackExponent b ≠ exponent := by
  intro heq
  rw [← heq, toNat_unpackExponent] at hne
  exact hne rfl

theorem toNat_unpackSign : (unpackSign b).toNat = b.toNat / signPlace % 2 := by
  change (BitVec.extractLsb 63 63 b).toNat = _
  simp [signPlace, Nat.shiftRight_eq_div_pow]

theorem toNat_packComponents (exponent : BitVec 11) (mantissa : BitVec 52) :
    (packComponents Format.binary64 .positive exponent mantissa).toNat =
      exponent.toNat * leadingBit + mantissa.toNat := by
  change (0#1 ++ exponent ++ mantissa).toNat = _
  rw [BitVec.toNat_append, BitVec.toNat_append, ← Nat.shiftLeft_add_eq_or_of_lt mantissa.isLt]
  simp [Nat.shiftLeft_eq, leadingBit]

theorem toNat_one_append (mantissa : BitVec 52) :
    (1#1 ++ mantissa).toNat = leadingBit + mantissa.toNat := by
  rw [BitVec.toNat_append, ← Nat.shiftLeft_add_eq_or_of_lt mantissa.isLt]
  rfl

/-- The greatest exponent is that of infinity and of what is no number, and with the exponent zero
the leading bit is missing. -/
theorem unpack_eq : UnpackedFloat.unpack Format.binary64 b =
    if unpackExponent b = -1#11 then
      if unpackMantissa b = 0#52 then .infinity (Sign.ofBitVec (unpackSign b)) else .notANumber
    else if unpackExponent b = 0#11 then
      if h : unpackMantissa b = 0#52 then .zero (Sign.ofBitVec (unpackSign b))
      else .finite (Sign.ofBitVec (unpackSign b)) (unpackMantissa b).toNat
        ((unpackExponent b).toNat - 1075 + 1)
        (Nat.pos_of_ne_zero fun hzero => h (BitVec.eq_of_toNat_eq hzero))
    else .finite (Sign.ofBitVec (unpackSign b)) (1#1 ++ unpackMantissa b).toNat
      ((unpackExponent b).toNat - 1075)
      (toNat_one_append (unpackMantissa b) ▸ Nat.add_pos_left (by decide) _) := rfl

end Parts

/-! ## Putting bits together -/

theorem finite_congr {sign : Sign} {m m' : Nat} {power power' : Int} {hm : 0 < m} {hm' : 0 < m'}
    (hsame : m = m') (hpower : power = power') :
    UnpackedFloat.finite sign m power hm = .finite sign m' power' hm' := by
  subst hsame hpower
  rfl

/-- A finite float is packed as infinity if its exponent is too large, and otherwise with the
exponent zero if its leading bit is missing. -/
theorem pack_finite (sign : Sign) {m : Nat} (power : Int) (hm : 0 < m) :
    UnpackedFloat.pack Format.binary64 (.finite sign m power hm) =
      if 2048 ≤ (power + 1023 + 52).toNat + 1 then packedInfinity Format.binary64 sign
      else if m.log2 + 1 = 53 then packComponents Format.binary64 sign
        (BitVec.ofNat 11 (power + 1023 + 52).toNat) (BitVec.ofNat 52 m)
      else packComponents Format.binary64 sign 0#11 (BitVec.ofNat 52 m) := rfl

theorem toNat_pack_subnormal {m : Nat} (hm : 0 < m) (hlt : m < leadingBit) :
    (UnpackedFloat.pack Format.binary64 (.finite .positive m (-1074) hm)).toNat = m := by
  have hlog : m.log2 + 1 ≠ 53 := by
    have hlt' : m.log2 < 52 := (Nat.log2_lt (by omega)).2 hlt
    omega
  rw [pack_finite, if_neg (by decide), if_neg hlog, toNat_packComponents, BitVec.toNat_ofNat,
    BitVec.toNat_ofNat]
  simp only [leadingBit] at *
  omega

theorem toNat_pack_normal {exponent fraction : Nat} (hlt : exponent < 2047)
    (hfraction : fraction < leadingBit) (hm : 0 < leadingBit + fraction) :
    (UnpackedFloat.pack Format.binary64
      (.finite .positive (leadingBit + fraction) ((exponent : Int) - 1075) hm)).toNat =
        exponent * leadingBit + fraction := by
  have hlog : (leadingBit + fraction).log2 = 52 := by
    rw [Nat.log2_eq_iff (by omega)]
    simp only [leadingBit] at *
    omega
  have hbiased : ((exponent : Int) - 1075 + 1023 + 52).toNat = exponent := by omega
  rw [pack_finite, hbiased, hlog, if_neg (by omega), if_pos rfl, toNat_packComponents,
    BitVec.toNat_ofNat, BitVec.toNat_ofNat]
  simp only [leadingBit] at *
  omega

/-! ## Numbers that are not negative -/

section Magnitude

variable {b : BitVec Format.binary64.numBits}

theorem ofBitVec_unpackSign (hb : b.toNat ≤ infinityBits) :
    Sign.ofBitVec (unpackSign b) = .positive := by
  have hsign := toNat_unpackSign b
  simp only [infinityBits, signPlace] at hb hsign
  have hzero : unpackSign b = 0#1 := by
    apply BitVec.eq_of_toNat_eq
    rw [hsign, BitVec.toNat_ofNat]
    omega
  rw [hzero]
  rfl

theorem unpack_subnormal (hpos : 0 < b.toNat) (hlt : b.toNat < leadingBit) :
    UnpackedFloat.unpack Format.binary64 b = .finite .positive b.toNat (-1074) hpos := by
  have hb : b.toNat ≤ infinityBits := by
    simp only [leadingBit, infinityBits] at *
    omega
  have hmantissa : (unpackMantissa b).toNat = b.toNat := by
    rw [toNat_unpackMantissa, Nat.mod_eq_of_lt hlt]
  have hzero : unpackExponent b = 0#11 := by
    apply BitVec.eq_of_toNat_eq
    rw [toNat_unpackExponent, Nat.div_eq_of_lt hlt]
    rfl
  have hne : unpackMantissa b ≠ 0#52 := by
    intro heq
    rw [heq] at hmantissa
    simp at hmantissa
    omega
  rw [unpack_eq, ofBitVec_unpackSign hb, hzero, if_neg (by decide), if_pos rfl, dif_neg hne]
  exact finite_congr hmantissa rfl

theorem unpack_normal (hle : leadingBit ≤ b.toNat) (hlt : b.toNat < infinityBits) :
    UnpackedFloat.unpack Format.binary64 b =
      .finite .positive (leadingBit + b.toNat % leadingBit)
        (((b.toNat / leadingBit : Nat) : Int) - 1075) (Nat.add_pos_left (by decide) _) := by
  have hexponent : (unpackExponent b).toNat = b.toNat / leadingBit := by
    rw [toNat_unpackExponent]
    simp only [leadingBit, infinityBits] at *
    omega
  have hones : unpackExponent b ≠ -1#11 := by
    apply unpackExponent_ne
    simp [leadingBit, infinityBits] at *
    omega
  have hzero : unpackExponent b ≠ 0#11 := by
    apply unpackExponent_ne
    simp [leadingBit, infinityBits] at *
    omega
  rw [unpack_eq, ofBitVec_unpackSign (Nat.le_of_lt hlt), if_neg hones, if_neg hzero]
  apply finite_congr
  · rw [toNat_one_append, toNat_unpackMantissa]
  · rw [hexponent]

/-- Zero, infinity, a number without a leading bit, or one with a leading bit that is not written. -/
theorem magnitude_cases (hb : b.toNat ≤ infinityBits) :
    b = 0#64 ∨ b = BitVec.ofNat 64 infinityBits ∨ (0 < b.toNat ∧ b.toNat < leadingBit) ∨
      (leadingBit ≤ b.toNat ∧ b.toNat < infinityBits) := by
  by_cases hzero : b.toNat = 0
  · exact .inl (BitVec.eq_of_toNat_eq hzero)
  by_cases hinfinity : b.toNat = infinityBits
  · exact .inr (.inl (BitVec.eq_of_toNat_eq hinfinity))
  · omega

/-- Packing the bits of a number with a clear sign again changes nothing. -/
theorem pack_unpack (hb : b.toNat ≤ infinityBits) :
    UnpackedFloat.pack Format.binary64 (UnpackedFloat.unpack Format.binary64 b) = b := by
  apply BitVec.eq_of_toNat_eq
  rcases magnitude_cases hb with rfl | rfl | ⟨hpos, hlt⟩ | ⟨hle, hlt⟩
  · decide
  · decide
  · rw [unpack_subnormal hpos hlt, toNat_pack_subnormal _ hlt]
  · have hexponent : b.toNat / leadingBit < 2047 := by
      simp only [leadingBit, infinityBits] at *
      omega
    have hfraction : b.toNat % leadingBit < leadingBit := Nat.mod_lt _ (by decide)
    rw [unpack_normal hle hlt, toNat_pack_normal hexponent hfraction]
    exact Nat.div_add_mod' _ _

theorem isNaN_unpack (hb : b.toNat ≤ infinityBits) :
    (UnpackedFloat.unpack Format.binary64 b).isNaN = false := by
  rcases magnitude_cases hb with rfl | rfl | ⟨hpos, hlt⟩ | ⟨hle, hlt⟩
  · decide
  · decide
  · rw [unpack_subnormal hpos hlt]
    rfl
  · rw [unpack_normal hle hlt]
    rfl

theorem isInf_unpack (hb : b.toNat < infinityBits) :
    (UnpackedFloat.unpack Format.binary64 b).isInf = false := by
  rcases magnitude_cases (Nat.le_of_lt hb) with rfl | rfl | ⟨hpos, hlt⟩ | ⟨hle, hlt⟩
  · decide
  · exact absurd hb (by decide)
  · rw [unpack_subnormal hpos hlt]
    rfl
  · rw [unpack_normal hle hlt]
    rfl

end Magnitude

section OfBits

variable {n : Nat}

theorem toNat_ofNat_of_le (hn : n ≤ infinityBits) : (BitVec.ofNat 64 n).toNat = n := by
  rw [BitVec.toNat_ofNat]
  exact Nat.mod_eq_of_lt (Nat.lt_of_le_of_lt hn (by decide))

theorem toBitVec_ofBits (hn : n ≤ infinityBits) :
    (Float.ofBits n.toUInt64).toModel.toBits.toBitVec = BitVec.ofNat 64 n :=
  pack_unpack (Nat.le_trans (Nat.le_of_eq (toNat_ofNat_of_le hn)) hn)

/-- A float has the bits that it was made from. -/
theorem toNat_toBits_ofBits (hn : n ≤ infinityBits) :
    (Float.ofBits n.toUInt64).toBits.toNat = n := by
  have hbits := congrArg BitVec.toNat (toBitVec_ofBits hn)
  exact hbits.trans (toNat_ofNat_of_le hn)

theorem unpack_ofBits (hn : n ≤ infinityBits) :
    (Float.ofBits n.toUInt64).toModel.unpack =
      UnpackedFloat.unpack Format.binary64 (BitVec.ofNat 64 n) := by
  rw [Float.Model.unpack, toBitVec_ofBits hn]

theorem isNaN_ofBits (hn : n ≤ infinityBits) : (Float.ofBits n.toUInt64).isNaN = false := by
  change (Float.ofBits n.toUInt64).toModel.unpack.isNaN = false
  rw [unpack_ofBits hn]
  exact isNaN_unpack (Nat.le_trans (Nat.le_of_eq (toNat_ofNat_of_le hn)) hn)

theorem isInf_ofBits (hn : n < infinityBits) : (Float.ofBits n.toUInt64).isInf = false := by
  have hle := Nat.le_of_lt hn
  change (Float.ofBits n.toUInt64).toModel.unpack.isInf = false
  rw [unpack_ofBits hle]
  exact isInf_unpack (Nat.lt_of_le_of_lt (Nat.le_of_eq (toNat_ofNat_of_le hle)) hn)

theorem signBit_ofBits (hn : n ≤ infinityBits) : signBit (Float.ofBits n.toUInt64) = false := by
  rw [signBit, toNat_toBits_ofBits hn]
  exact decide_eq_false (Nat.not_le_of_lt (Nat.lt_of_le_of_lt hn (by decide)))

end OfBits

end Lox
