import Lox.Decimal.Shortest
import Lox.Proofs.Decimal.Nearest

/-!
# The shortest decimal reads back

The exact value of a float without a sign is a decimal that reads as this float, and the search for
a shorter one only ever stops at a decimal that does.
-/

namespace Lox

/-- A float without a sign, infinity included: its bits are at most those of infinity. -/
def Unsigned (x : Float) : Prop :=
  ∃ n ≤ infinityBits, x = Float.ofBits n.toUInt64

theorem zero_eq_ofBits : (0 : Float) = Float.ofBits (0 : Nat).toUInt64 := by
  decide +kernel

theorem unsigned_zero : Unsigned 0 :=
  ⟨0, by decide, zero_eq_ofBits⟩

theorem unsigned_floatOfFraction (num den : Nat) : Unsigned (floatOfFraction num den) := by
  unfold floatOfFraction
  split
  · exact unsigned_zero
  · exact ⟨_, Nat.min_le_right _ _, rfl⟩

/-- No decimal is read as a float with a sign. -/
theorem Decimal.unsigned_toFloat (d : Decimal) : Unsigned d.toFloat := by
  rw [Decimal.toFloat_eq]
  exact unsigned_floatOfFraction _ _

/-! ## The exact value -/

section

variable {n : Nat}

theorem magnitude_ofBits (hn : n < infinityBits) :
    magnitude (Float.ofBits n.toUInt64) =
      if n / leadingBit = 0 then (n % leadingBit, -1074)
      else (leadingBit + n % leadingBit, ((n / leadingBit : Nat) : Int) - 1075) := by
  have hsign : n % signPlace = n := Nat.mod_eq_of_lt (hn.trans (by decide))
  rw [magnitude, toNat_toBits_ofBits hn.le, hsign]

/-- Only zero has no mantissa. -/
theorem magnitude_ofBits_eq_zero (hn : n < infinityBits) :
    (magnitude (Float.ofBits n.toUInt64)).1 = 0 ↔ n = 0 := by
  have hsplit := Nat.div_add_mod n leadingBit
  rw [magnitude_ofBits hn]
  split
  · next hpower =>
    rw [hpower] at hsplit
    simp only
    omega
  · next hpower =>
    have hpos : 0 < leadingBit := by decide
    have hzero : n ≠ 0 := by
      rintro rfl
      exact hpower (Nat.zero_div _)
    simp only
    omega

namespace Decimal

theorem value_ofBinary (m : Nat) (power : Int) : (ofBinary m power).value = m * 2 ^ power := by
  unfold ofBinary value
  split
  · next hpower =>
    obtain ⟨k, rfl⟩ := Int.eq_ofNat_of_zero_le hpower
    simp
  · next hpower =>
    obtain ⟨k, rfl⟩ : ∃ k : Nat, power = -k := ⟨power.natAbs, by omega⟩
    have hten : (10 : ℚ) ^ k = 5 ^ k * 2 ^ k := by
      rw [← mul_pow]
      norm_num
    have hfive : (5 : ℚ) ^ k ≠ 0 := by positivity
    simp only [neg_neg, Int.toNat_natCast, Nat.pow_eq, zpow_neg, zpow_natCast, hten]
    push_cast
    field_simp

/-- The exact decimal of a float reads as this float. -/
theorem toFloat_ofBinary_magnitude (hpos : n ≠ 0) (hn : n < infinityBits) :
    (ofBinary (magnitude (Float.ofBits n.toUInt64)).1 (magnitude (Float.ofBits n.toUInt64)).2).toFloat
      = Float.ofBits n.toUInt64 := by
  have hm := (magnitude_ofBits_eq_zero hn).not.2 hpos
  have hsplit := Nat.div_add_mod' n leadingBit
  have hmod := Nat.mod_lt n (show 0 < leadingBit by decide)
  rw [toFloat_eq]
  rw [magnitude_ofBits hn] at hm ⊢
  generalize n / leadingBit = power at hm hsplit ⊢
  generalize n % leadingBit = fraction at hm hsplit hmod ⊢
  split
  -- Without a leading bit the bits are the mantissa itself; with one, the power counts it once.
  · next hpower =>
    rw [if_pos hpower] at hm
    have hbits : (-1074 + 1074 : Int).toNat * leadingBit + fraction = n := by
      rw [hpower] at hsplit
      exact hsplit
    rw [floatOfFraction_of_binary (den_ne_zero _) ((num_div_den _).trans (value_ofBinary _ _)) hm
      (by dsimp only; omega) (.inr rfl), hbits, Nat.min_eq_left hn.le]
  · next hpower =>
    rw [if_neg hpower] at hm
    have hexponent : ((power : Int) - 1075 + 1074).toNat = power - 1 := by omega
    have hbits : (power - 1) * leadingBit + (leadingBit + fraction) = n := by
      rw [← hsplit, ← Nat.add_assoc, ← Nat.succ_mul, Nat.succ_eq_add_one,
        Nat.sub_add_cancel (Nat.pos_of_ne_zero hpower)]
    rw [floatOfFraction_of_binary (den_ne_zero _) ((num_div_den _).trans (value_ofBinary _ _)) hm
      (by dsimp only; omega) (.inl ⟨Nat.le_add_right _ _, by dsimp only; omega⟩)]
    dsimp only
    rw [hexponent, hbits, Nat.min_eq_left hn.le]

/-! ## The search -/

/-- A search that starts from a decimal that passes ends at one that does. -/
theorem reads_shortestFrom {reads : Decimal → Bool} {d : Decimal} (hd : reads d = true)
    (dropped : Nat) : reads (shortestFrom reads d dropped) = true := by
  induction dropped with
  | zero => exact hd
  | succ dropped ih =>
    rw [shortestFrom]
    split
    · next hlower hupper =>
      split
      · exact hupper
      · exact hlower
    · next hlower _ => exact hlower
    · next _ hupper => exact hupper
    · exact ih

/-- The shortest decimal of a float reads as this float. -/
theorem toFloat_shortest (hpos : n ≠ 0) (hn : n < infinityBits) :
    (shortest (Float.ofBits n.toUInt64)).toFloat = Float.ofBits n.toUInt64 := by
  have hsign : n % signPlace = n := Nat.mod_eq_of_lt (hn.trans (by decide))
  have hreads := @reads_shortestFrom (fun d => d.toFloat = Float.ofBits n.toUInt64) _
    (decide_eq_true (toFloat_ofBinary_magnitude hpos hn))
  rw [shortest, toNat_toBits_ofBits hn.le, hsign]
  exact of_decide_eq_true (hreads _)

theorem digits_shortest_ne_zero (hpos : n ≠ 0) (hn : n < infinityBits) :
    (shortest (Float.ofBits n.toUInt64)).digits ≠ 0 := by
  intro hdigits
  have hfloat := toFloat_shortest hpos hn
  rw [toFloat, if_pos hdigits, zero_eq_ofBits] at hfloat
  have hbits := congrArg (fun x => x.toBits.toNat) hfloat
  simp only [toNat_toBits_ofBits hn.le, toNat_toBits_ofBits (Nat.zero_le infinityBits)] at hbits
  exact hpos hbits.symm

end Decimal

end

end Lox
