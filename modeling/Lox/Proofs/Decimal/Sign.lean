import Lox.Decimal.Layout
import Lox.Proofs.Decimal.Bits

/-!
# Floats with a sign

Negating a float whose sign bit is clear only sets that bit. So a finite float is one without a sign
or the opposite of one, and both are written with the same digits.
-/

namespace Lox

open Float.Model Float.Model.UnpackedFloat

/-! ## Setting the sign bit -/

theorem toNat_packComponents_negative (exponent : BitVec 11) (mantissa : BitVec 52) :
    (packComponents Format.binary64 .negative exponent mantissa).toNat =
      signPlace + (packComponents Format.binary64 .positive exponent mantissa).toNat := by
  rw [toNat_packComponents]
  change (1#1 ++ exponent ++ mantissa).toNat = _
  rw [BitVec.toNat_append, BitVec.toNat_append, ← Nat.shiftLeft_add_eq_or_of_lt mantissa.isLt,
    ← Nat.shiftLeft_add_eq_or_of_lt exponent.isLt]
  simp only [Nat.shiftLeft_eq, leadingBit, signPlace, BitVec.toNat_ofNat]
  omega

theorem toNat_pack_negative {m : Nat} (power : Int) (hm : 0 < m) :
    (UnpackedFloat.pack Format.binary64 (.finite .negative m power hm)).toNat =
      signPlace + (UnpackedFloat.pack Format.binary64 (.finite .positive m power hm)).toNat := by
  rw [pack_finite, pack_finite]
  split
  · decide
  · split <;> exact toNat_packComponents_negative _ _

section Bits

variable {b : BitVec Format.binary64.numBits}

theorem toNat_pack_neg_unpack (hb : b.toNat < infinityBits) :
    (UnpackedFloat.pack Format.binary64 (UnpackedFloat.unpack Format.binary64 b).neg).toNat =
      signPlace + b.toNat := by
  have hsame := pack_unpack hb.le
  rcases magnitude_cases hb.le with rfl | rfl | ⟨hpos, hlt⟩ | ⟨hle, hlt⟩
  · decide
  · exact absurd hb (by decide)
  · rw [unpack_subnormal hpos hlt] at hsame ⊢
    exact (toNat_pack_negative _ _).trans (by rw [hsame])
  · rw [unpack_normal hle hlt] at hsame ⊢
    exact (toNat_pack_negative _ _).trans (by rw [hsame])

/-- The exponent of a finite float is not the greatest one. -/
theorem toNat_mod_lt_of_isFinite (hfinite : (UnpackedFloat.unpack Format.binary64 b).isFinite = true) :
    b.toNat % signPlace < infinityBits := by
  have hones : unpackExponent b ≠ -1#11 := by
    intro heq
    rw [unpack_eq, if_pos heq] at hfinite
    split at hfinite <;> cases hfinite
  have hexponent := toNat_unpackExponent b
  have hne : (unpackExponent b).toNat ≠ 2047 := fun heq => hones (BitVec.eq_of_toNat_eq heq)
  simp only [leadingBit, signPlace, infinityBits] at *
  omega

end Bits

/-! ## Finite floats -/

section OfBits

variable {n : Nat}

theorem toNat_toBits_neg_ofBits (hn : n < infinityBits) :
    (-Float.ofBits n.toUInt64).toBits.toNat = signPlace + n := by
  have hneg := toNat_pack_neg_unpack ((toNat_ofNat_of_le hn.le).trans_lt hn)
  rw [← unpack_ofBits hn.le, toNat_ofNat_of_le hn.le] at hneg
  exact hneg

theorem signBit_neg_ofBits (hn : n < infinityBits) : signBit (-Float.ofBits n.toUInt64) = true := by
  rw [signBit, toNat_toBits_neg_ofBits hn]
  exact decide_eq_true (Nat.le_add_right _ _)

theorem toNat_toBits_neg_ofBits_mod (hn : n < infinityBits) :
    (-Float.ofBits n.toUInt64).toBits.toNat % signPlace =
      (Float.ofBits n.toUInt64).toBits.toNat % signPlace := by
  rw [toNat_toBits_neg_ofBits hn, toNat_toBits_ofBits hn.le, Nat.add_mod_left]

end OfBits

section Finite

variable {x : Float}

theorem isNaN_of_isFinite (hx : x.isFinite = true) : x.isNaN = false := by
  change x.toModel.unpack.isFinite = true at hx
  change x.toModel.unpack.isNaN = false
  cases hunpack : x.toModel.unpack <;> rw [hunpack] at hx <;> first | rfl | cases hx

theorem isInf_of_isFinite (hx : x.isFinite = true) : x.isInf = false := by
  change x.toModel.unpack.isFinite = true at hx
  change x.toModel.unpack.isInf = false
  cases hunpack : x.toModel.unpack <;> rw [hunpack] at hx <;> first | rfl | cases hx

theorem eq_of_toNat_toBits {y : Float} (h : x.toBits.toNat = y.toBits.toNat) : x = y := by
  obtain ⟨⟨bits, _⟩⟩ := x
  obtain ⟨⟨bits', _⟩⟩ := y
  obtain rfl : bits = bits' := UInt64.toNat_inj.1 h
  rfl

/-- A finite float has no sign, or it is the opposite of one that has none. -/
theorem exists_ofBits_of_isFinite (hx : x.isFinite = true) :
    ∃ n < infinityBits, x = Float.ofBits n.toUInt64 ∨ x = -Float.ofBits n.toUInt64 := by
  have hn : x.toBits.toNat % signPlace < infinityBits := toNat_mod_lt_of_isFinite hx
  refine ⟨_, hn, ?_⟩
  have hlt := x.toBits.toNat_lt
  by_cases hsign : x.toBits.toNat < signPlace
  · refine .inl (eq_of_toNat_toBits ?_)
    rw [toNat_toBits_ofBits hn.le, Nat.mod_eq_of_lt hsign]
  · refine .inr (eq_of_toNat_toBits ?_)
    rw [toNat_toBits_neg_ofBits hn]
    simp only [signPlace] at *
    omega

end Finite

/-! ## Writing -/

namespace NumberLayout

variable (layout : NumberLayout) {n : Nat}

theorem magnitudeText_neg (hn : n < infinityBits) :
    layout.magnitudeText (-Float.ofBits n.toUInt64) =
      layout.magnitudeText (Float.ofBits n.toUInt64) := by
  unfold magnitudeText Decimal.shortest magnitude
  rw [toNat_toBits_neg_ofBits_mod hn]

end NumberLayout

def signText (x : Float) : List Char :=
  if signBit x then ['-'] else []

theorem NumberLayout.toList_write (layout : NumberLayout) {x : Float} (hx : x.isFinite = true) :
    (layout.write x).toList = signText x ++ layout.magnitudeText x := by
  rw [write, isNaN_of_isFinite hx, isInf_of_isFinite hx, if_neg (by decide)]
  dsimp only
  rw [if_neg (by decide), String.toList_append, String.toList_ofList, signText]
  split <;> rfl

theorem point_not_mem_signText (x : Float) : '.' ∉ signText x := by
  unfold signText
  split <;> decide

/-- The bits of the size of a finite float: it is written like the float of these bits, but for its
sign, and is this float or its opposite. -/
structure IsSize (x : Float) (n : Nat) : Prop where
  lt : n < infinityBits
  magnitudeText (layout : NumberLayout) :
    layout.magnitudeText x = layout.magnitudeText (Float.ofBits n.toUInt64)
  sign : signText x = [] ∧ x = Float.ofBits n.toUInt64 ∨
    signText x = ['-'] ∧ x = -Float.ofBits n.toUInt64

theorem exists_size {x : Float} (hx : x.isFinite = true) : ∃ n, IsSize x n := by
  obtain ⟨n, hn, rfl | rfl⟩ := exists_ofBits_of_isFinite hx
  · refine ⟨n, hn, fun _ => rfl, .inl ⟨?_, rfl⟩⟩
    rw [signText, signBit_ofBits hn.le]
    rfl
  · refine ⟨n, hn, fun layout => layout.magnitudeText_neg hn, .inr ⟨?_, rfl⟩⟩
    rw [signText, signBit_neg_ofBits hn]
    rfl

end Lox
