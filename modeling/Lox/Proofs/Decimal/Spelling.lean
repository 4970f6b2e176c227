import Mathlib.Data.List.TakeWhile
import Lox.Decimal.Layout
import Lox.Proofs.Decimal.Shortest

/-!
# Spelled numbers

A number is written with digits before a point, digits behind it and an exponent; the last two may
be missing. Every layout of a float spells a decimal that reads as this float: it only moves the
point of the shortest one and fills places with zeros.
-/

namespace Lox

/-! ## Runs of digits -/

namespace Decimal

theorem digitsValue_append (as bs : List Char) :
    digitsValue (as ++ bs) = digitsValue as * 10 ^ bs.length + digitsValue bs := by
  change Nat.ofDigitChars 10 (as ++ bs) 0 = Nat.ofDigitChars 10 as 0 * 10 ^ bs.length +
    Nat.ofDigitChars 10 bs 0
  rw [Nat.ofDigitChars_append, Nat.ofDigitChars_eq_ofDigitChars_zero, Nat.mul_comm]

theorem digitsValue_zeros (count : Nat) : digitsValue (List.replicate count '0') = 0 := by
  change Nat.ofDigitChars 10 (List.replicate count '0') 0 = 0
  rw [Nat.ofDigitChars_replicate_zero, Nat.mul_zero]

theorem digitsValue_toDigits (n : Nat) : digitsValue (Nat.toDigits 10 n) = n :=
  Nat.ofDigitChars_ten_toDigits

theorem isDigit_of_mem_toDigits {n : Nat} {c : Char} (hc : c ∈ Nat.toDigits 10 n) :
    c.isDigit = true :=
  Nat.isDigit_of_mem_toDigits (by decide) (by decide) hc

/-- No digits begin with a zero but those of zero. -/
theorem head?_toDigits_ne_zero {n : Nat} (hn : n ≠ 0) : (Nat.toDigits 10 n).head? ≠ some '0' := by
  induction n using Nat.strongRecOn with
  | ind n ih =>
    by_cases hlt : n < 10
    · rw [Nat.toDigits_of_lt_base hlt, List.head?_cons, Ne, Option.some_inj, Nat.digitChar_eq_zero]
      exact hn
    · have hle : 10 ≤ n := Nat.le_of_not_lt hlt
      rw [Nat.toDigits_of_base_le (by decide) hle, List.head?_append_of_ne_nil _ Nat.toDigits_ne_nil]
      exact ih (n / 10) (Nat.div_lt_self (by omega) (by decide)) (by omega)

end Decimal

open Decimal

/-! ## Spellings -/

/-- A number as it is written. A point is only written where digits follow it, and the digits before
it begin with no zero that could be left out. -/
structure Spelling where
  whole : List Char
  fraction : List Char
  exponent : Option (Bool × List Char)
  whole_isDigit : ∀ c ∈ whole, c.isDigit = true
  whole_leads : whole = ['0'] ∨ whole ≠ [] ∧ whole.head? ≠ some '0'
  fraction_isDigit : ∀ c ∈ fraction, c.isDigit = true
  exponent_isDigit : ∀ power ∈ exponent, power.2 ≠ [] ∧ ∀ c ∈ power.2, c.isDigit = true

namespace Spelling

def fractionText (s : Spelling) : List Char :=
  if s.fraction = [] then [] else '.' :: s.fraction

def exponentText (s : Spelling) : List Char :=
  s.exponent.elim [] fun power => 'e' :: (if power.1 then '-' else '+') :: power.2

def text (s : Spelling) : List Char :=
  s.whole ++ s.fractionText ++ s.exponentText

def power (s : Spelling) : Int :=
  s.exponent.elim 0 fun power => if power.1 then -(digitsValue power.2 : Int) else digitsValue power.2

def decimal (s : Spelling) : Decimal :=
  ⟨digitsValue (s.whole ++ s.fraction), -(s.fraction.length : Int) + s.power⟩

/-- Whether a spelling is that of a float and not that of an integer. -/
def IsFloat (s : Spelling) : Prop :=
  s.fraction ≠ [] ∨ s.exponent ≠ none

theorem whole_ne (s : Spelling) : s.whole ≠ [] := by
  rcases s.whole_leads with hzero | ⟨hne, -⟩
  · rw [hzero]
    exact List.cons_ne_nil _ _
  · exact hne

section WithoutExponent

variable {s : Spelling} (hexponent : s.exponent = none)
include hexponent

theorem text_of_exponent : s.text = s.whole ++ s.fractionText := by
  rw [text, exponentText, hexponent]
  exact List.append_nil _

theorem decimal_of_exponent : s.decimal = Decimal.ofParts s.whole s.fraction := by
  rw [decimal, power, hexponent]
  exact congrArg _ (Int.add_zero _)

/-- A number is only written with a point zero at its end if its fraction ends in a zero. -/
theorem not_pointZero_suffix (hlast : s.fraction.getLast? ≠ some '0') {sign : List Char}
    (hsign : '.' ∉ sign) : ¬ ['.', '0'] <:+ sign ++ s.text := by
  intro hsuffix
  rw [text_of_exponent hexponent, fractionText] at hsuffix
  by_cases hfraction : s.fraction = []
  · rw [if_pos hfraction, List.append_nil] at hsuffix
    rcases List.mem_append.1 (hsuffix.subset List.mem_cons_self) with hmem | hmem
    · exact hsign hmem
    · exact absurd (s.whole_isDigit _ hmem) (by decide)
  · obtain ⟨front, hfront⟩ := hsuffix
    have hends := congrArg List.getLast? hfront
    rw [if_neg hfraction, List.getLast?_append_of_ne_nil _ (List.cons_ne_nil _ _), ← List.append_assoc,
      List.getLast?_append_of_ne_nil _ (List.cons_ne_nil _ _), List.getLast?_cons_of_ne_nil hfraction]
      at hends
    exact hlast hends.symm

end WithoutExponent

end Spelling

namespace NumberLayout

/-! ## Significant digits -/

theorem exists_significant_append_zeros (d : Decimal) :
    ∃ count, Nat.toDigits 10 d.digits = (significant d).1 ++ List.replicate count '0' := by
  have hsplit := congrArg List.reverse
    (List.takeWhile_append_dropWhile (p := (· == '0')) (l := (Nat.toDigits 10 d.digits).reverse))
  rw [List.reverse_append, List.reverse_reverse] at hsplit
  have hzeros : ∀ c ∈ ((Nat.toDigits 10 d.digits).reverse.takeWhile (· == '0')).reverse, c = '0' := by
    intro c hc
    simpa using List.mem_takeWhile_imp (List.mem_reverse.1 hc)
  rw [List.eq_replicate_of_mem hzeros] at hsplit
  exact ⟨_, hsplit.symm⟩

/-- The significant digits of a decimal do not end with a zero. -/
theorem getLast?_significant_ne_zero (d : Decimal) : (significant d).1.getLast? ≠ some '0' := by
  intro hlast
  rw [significant, List.getLast?_reverse] at hlast
  have hzero := List.head?_dropWhile_not (· == '0') (Nat.toDigits 10 d.digits).reverse
  rw [hlast] at hzero
  cases hzero

/-- The significant digits of a decimal: there are some, they begin with no zero, and with the point
where it belongs they have the value of the decimal. -/
theorem significant_spec {d : Decimal} (hd : d.digits ≠ 0) :
    (significant d).1 ≠ [] ∧ (significant d).1.head? ≠ some '0' ∧
      (∀ c ∈ (significant d).1, c.isDigit = true) ∧
      d.value = digitsValue (significant d).1 *
        (10 : ℚ) ^ ((significant d).2 - ((significant d).1.length : Int)) := by
  obtain ⟨count, hdigits⟩ := exists_significant_append_zeros d
  have hvalue : d.digits = digitsValue (significant d).1 * 10 ^ count := by
    have hsplit := congrArg digitsValue hdigits
    rw [digitsValue_toDigits, digitsValue_append, digitsValue_zeros, List.length_replicate] at hsplit
    exact hsplit
  have hne : (significant d).1 ≠ [] := by
    intro hnil
    rw [hnil] at hvalue
    exact hd (hvalue.trans (Nat.zero_mul _))
  refine ⟨hne, ?_, ?_, ?_⟩
  · have hhead := head?_toDigits_ne_zero hd
    rwa [hdigits, List.head?_append_of_ne_nil _ hne] at hhead
  · intro c hc
    exact isDigit_of_mem_toDigits (hdigits ▸ List.mem_append_left _ hc)
  · have hplaces : (significant d).2 - ((significant d).1.length : Int) = count + d.exponent := by
      have hlength := congrArg List.length hdigits
      rw [List.length_append, List.length_replicate] at hlength
      have hbefore : (significant d).2 = ((Nat.toDigits 10 d.digits).length : Int) + d.exponent := rfl
      omega
    rw [hplaces, zpow_add₀ (by norm_num), zpow_natCast, Decimal.value]
    conv_lhs => rw [hvalue]
    push_cast
    ring

/-! ## Layouts -/

/-- Some digits spell, with the point moved, a decimal of a certain value. -/
def Spells (text : List Char) (q : ℚ) : Prop :=
  ∃ s : Spelling, s.IsFloat ∧ s.text = text ∧ s.decimal.value = q

section

variable {digits : List Char}

def pointFraction (pointZero : Bool) (digits : List Char) (before : Int) : List Char :=
  if before ≤ 0 then List.replicate (-before).toNat '0' ++ digits
  else if (digits.length : Int) ≤ before then (if pointZero then ['0'] else [])
  else digits.drop before.toNat

theorem pointFraction_true_ne_nil (hne : digits ≠ []) (before : Int) :
    pointFraction true digits before ≠ [] := by
  unfold pointFraction
  split
  · simp [hne]
  · split
    · simp
    · simp only [ne_eq, List.drop_eq_nil_iff]
      omega

/-- A number that is written without a point zero does not end with a zero behind the point. -/
theorem getLast?_pointFraction_ne_zero (hlast : digits.getLast? ≠ some '0') (hne : digits ≠ [])
    (before : Int) : (pointFraction false digits before).getLast? ≠ some '0' := by
  unfold pointFraction
  split
  · rwa [List.getLast?_append_of_ne_nil _ hne]
  · split
    · exact nofun
    · rw [List.getLast?_drop, if_neg (by omega)]
      exact hlast

/-- Some digits with a point are a spelling without an exponent. -/
theorem exists_withPoint (hne : digits ≠ []) (hhead : digits.head? ≠ some '0')
    (hdigits : ∀ c ∈ digits, c.isDigit = true) (pointZero : Bool) (before : Int) :
    ∃ s : Spelling, s.exponent = none ∧ s.fraction = pointFraction pointZero digits before ∧
      s.text = withPoint pointZero digits before ∧
      s.decimal.value = digitsValue digits * 10 ^ (before - (digits.length : Int)) := by
  have hzeros : ∀ count, ∀ c ∈ List.replicate count '0', c.isDigit = true := by
    intro count c hc
    rw [List.eq_of_mem_replicate hc]
    rfl
  unfold withPoint pointFraction
  split
  · next hbefore =>
    -- Zeros stand before the digits.
    refine ⟨⟨['0'], List.replicate (-before).toNat '0' ++ digits, none, by simp, .inl rfl, ?_,
      nofun⟩, rfl, rfl, ?_, ?_⟩
    · intro c hc
      rcases List.mem_append.1 hc with hc | hc
      · exact hzeros _ c hc
      · exact hdigits c hc
    · simp [Spelling.text, Spelling.fractionText, Spelling.exponentText, hne]
    · have hvalue : digitsValue (['0'] ++ (List.replicate (-before).toNat '0' ++ digits)) =
          digitsValue digits := by
        rw [← List.append_assoc, ← List.replicate_one, List.replicate_append_replicate,
          digitsValue_append, digitsValue_zeros, Nat.zero_mul, Nat.zero_add]
      simp only [Spelling.decimal, Spelling.power, Decimal.value, hvalue, Option.elim_none,
        List.length_append, List.length_replicate]
      congr 2
      push_cast
      omega
  · next hbefore =>
    split
    · next hlength =>
      -- Zeros stand behind the digits, and the only place after the point is another one.
      refine ⟨⟨digits ++ List.replicate (before.toNat - digits.length) '0',
        if pointZero then ['0'] else [], none, ?_, .inr ⟨by simp [hne], ?_⟩, ?_, nofun⟩, rfl, rfl,
        ?_, ?_⟩
      · intro c hc
        rcases List.mem_append.1 hc with hc | hc
        · exact hdigits c hc
        · exact hzeros _ c hc
      · rwa [List.head?_append_of_ne_nil _ hne]
      · split <;> simp
      · cases pointZero <;> simp [Spelling.text, Spelling.fractionText, Spelling.exponentText]
      · obtain ⟨places, hplaces⟩ : ∃ places,
            (if pointZero then ['0'] else []) = List.replicate places '0' := by
          cases pointZero
          · exact ⟨0, rfl⟩
          · exact ⟨1, rfl⟩
        have hvalue : digitsValue (digits ++ List.replicate (before.toNat - digits.length) '0' ++
            List.replicate places '0') =
              digitsValue digits * 10 ^ (before.toNat - digits.length + places) := by
          rw [List.append_assoc, List.replicate_append_replicate, digitsValue_append,
            digitsValue_zeros, List.length_replicate, Nat.add_zero]
        simp only [Spelling.decimal, Spelling.power, Decimal.value, hplaces, hvalue,
          Option.elim_none, List.length_replicate]
        push_cast
        rw [mul_assoc, ← zpow_natCast, ← zpow_add₀ (by norm_num)]
        congr 2
        push_cast
        omega
    · next hlength =>
      have hpos : before.toNat ≠ 0 := by omega
      refine ⟨⟨digits.take before.toNat, digits.drop before.toNat, none, ?_, .inr ⟨?_, ?_⟩, ?_,
        nofun⟩, rfl, rfl, ?_, ?_⟩
      · exact fun c hc => hdigits c (List.mem_of_mem_take hc)
      · simp [hne, hpos]
      · rwa [List.head?_take, if_neg hpos]
      · exact fun c hc => hdigits c (List.mem_of_mem_drop hc)
      · simp [Spelling.text, Spelling.fractionText, Spelling.exponentText]
        omega
      · simp only [Spelling.decimal, Spelling.power, Decimal.value, Option.elim_none,
          List.take_append_drop, List.length_drop]
        congr 2
        omega

theorem spells_withPoint (hne : digits ≠ []) (hhead : digits.head? ≠ some '0')
    (hdigits : ∀ c ∈ digits, c.isDigit = true) (before : Int) :
    Spells (withPoint true digits before)
      (digitsValue digits * 10 ^ (before - (digits.length : Int))) := by
  obtain ⟨s, -, hfraction, htext, hvalue⟩ := exists_withPoint hne hhead hdigits true before
  exact ⟨s, .inl (hfraction ▸ pointFraction_true_ne_nil hne before), htext, hvalue⟩

/-- The digits of an exponent, at least two of them. -/
def powerDigits (exponent : Int) : List Char :=
  if (Nat.toDigits 10 exponent.natAbs).length < 2 then '0' :: Nat.toDigits 10 exponent.natAbs
  else Nat.toDigits 10 exponent.natAbs

theorem powerDigits_spec (exponent : Int) :
    powerDigits exponent ≠ [] ∧ (∀ c ∈ powerDigits exponent, c.isDigit = true) ∧
      digitsValue (powerDigits exponent) = exponent.natAbs := by
  have hpower : ∀ c ∈ Nat.toDigits 10 exponent.natAbs, c.isDigit = true :=
    fun c => isDigit_of_mem_toDigits
  unfold powerDigits
  split
  · refine ⟨List.cons_ne_nil _ _, List.forall_mem_cons.2 ⟨rfl, hpower⟩, ?_⟩
    have hzero : digitsValue ['0'] = 0 := by decide
    rw [← List.singleton_append, digitsValue_append, digitsValue_toDigits, hzero, Nat.zero_mul,
      Nat.zero_add]
  · exact ⟨Nat.toDigits_ne_nil, hpower, digitsValue_toDigits _⟩

theorem spells_withExponent (hne : digits ≠ []) (hhead : digits.head? ≠ some '0')
    (hdigits : ∀ c ∈ digits, c.isDigit = true) (exponent : Int) :
    Spells (withExponent digits exponent)
      (digitsValue digits * 10 ^ (exponent + 1 - (digits.length : Int))) := by
  obtain ⟨hpowerNe, hpowerDigits, hpowerValue⟩ := powerDigits_spec exponent
  obtain ⟨first, rest, rfl⟩ := List.exists_cons_of_ne_nil hne
  obtain ⟨hfirst, hrest⟩ := List.forall_mem_cons.1 hdigits
  refine ⟨⟨[first], rest, some (decide (exponent < 0), powerDigits exponent), ?_,
    .inr ⟨List.cons_ne_nil _ _, hhead⟩, hrest, ?_⟩, .inr nofun, ?_, ?_⟩
  · simpa using hfirst
  · rintro _ ⟨⟩
    exact ⟨hpowerNe, hpowerDigits⟩
  · cases rest <;>
      simp [Spelling.text, Spelling.fractionText, Spelling.exponentText, withExponent, powerDigits]
  · have hpower : (if exponent < 0 then -(exponent.natAbs : Int) else exponent.natAbs) = exponent := by
      split <;> omega
    simp only [Spelling.decimal, Spelling.power, Decimal.value, Option.elim_some, hpowerValue,
      decide_eq_true_eq, hpower, List.singleton_append, List.length_cons]
    congr 2
    push_cast
    omega

end

theorem value_shortest_zero : (shortest (Float.ofBits (0 : Nat).toUInt64)).value = 0 := by
  have hexact : (magnitude (Float.ofBits (0 : Nat).toUInt64)).1 = 0 :=
    (magnitude_ofBits_eq_zero (by decide)).2 rfl
  have hdigits (power : Int) : (ofBinary 0 power).digits = 0 := by
    unfold ofBinary
    split <;> exact Nat.zero_mul _
  have hcount : digitCount 0 - 1 = 0 := rfl
  rw [shortest, hexact, hdigits, hcount, shortestFrom, value, hdigits, Nat.cast_zero, zero_mul]

section Layout

variable {layout : NumberLayout} {n : Nat}

/-- A decimal of the value of the shortest one reads as the same float. -/
theorem toFloat_of_value {d : Decimal} (hn : n < infinityBits)
    (hd : d.value = (shortest (Float.ofBits n.toUInt64)).value) :
    d.toFloat = Float.ofBits n.toUInt64 := by
  by_cases hzero : n = 0
  · subst hzero
    have hzero : (⟨0, 0⟩ : Decimal).value = 0 := by simp [Decimal.value]
    rw [toFloat_congr (hd.trans (value_shortest_zero.trans hzero.symm)), ← zero_eq_ofBits]
    rfl
  · exact (toFloat_congr hd).trans (toFloat_shortest hzero hn)

/-- A layout that writes integral numbers with a point spells every float as a float, by a decimal
of the value of the shortest one. -/
theorem spells_magnitudeText (hpoint : layout.pointZero = true) (hn : n < infinityBits) :
    Spells (layout.magnitudeText (Float.ofBits n.toUInt64))
      (shortest (Float.ofBits n.toUInt64)).value := by
  by_cases hzero : n = 0
  · subst hzero
    have hmagnitude := (magnitude_ofBits_eq_zero hn).2 rfl
    refine ⟨⟨['0'], ['0'], none, by simp, .inl rfl, by simp, nofun⟩, .inl (by simp), ?_, ?_⟩
    · rw [magnitudeText, if_pos hmagnitude, hpoint]
      rfl
    · rw [value_shortest_zero]
      exact zero_mul _
  · have hmagnitude := (magnitude_ofBits_eq_zero hn).not.2 hzero
    obtain ⟨hne, hhead, hdigits, hvalue⟩ := significant_spec (digits_shortest_ne_zero hzero hn)
    rw [magnitudeText, if_neg hmagnitude, hpoint, hvalue]
    dsimp only
    split
    · exact spells_withPoint hne hhead hdigits _
    · have hspells := spells_withExponent hne hhead hdigits
        ((significant (shortest (Float.ofBits n.toUInt64))).2 - 1)
      rwa [Int.sub_add_cancel] at hspells

/-- A layout that writes integral numbers with a point spells every float as a float, by a decimal
that reads as this float. -/
theorem exists_spelling {layout : NumberLayout} (hpoint : layout.pointZero = true) {n : Nat}
    (hn : n < infinityBits) :
    ∃ s : Spelling, s.IsFloat ∧ s.text = layout.magnitudeText (Float.ofBits n.toUInt64) ∧
      s.decimal.toFloat = Float.ofBits n.toUInt64 := by
  obtain ⟨s, hfloat, htext, hvalue⟩ := spells_magnitudeText hpoint hn
  exact ⟨s, hfloat, htext, toFloat_of_value hn hvalue⟩

/-- A layout without exponents that writes integral numbers without a point spells every float by a
decimal of the value of the shortest one, with no zero at the end of a fraction. -/
theorem exists_positional_spelling (hpositional : ∀ power, layout.positional power = true)
    (hpoint : layout.pointZero = false) (hn : n < infinityBits) :
    ∃ s : Spelling, s.exponent = none ∧ s.fraction.getLast? ≠ some '0' ∧
      s.text = layout.magnitudeText (Float.ofBits n.toUInt64) ∧
      s.decimal.value = (shortest (Float.ofBits n.toUInt64)).value := by
  by_cases hzero : n = 0
  · subst hzero
    have hmagnitude := (magnitude_ofBits_eq_zero hn).2 rfl
    refine ⟨⟨['0'], [], none, by simp, .inl rfl, nofun, nofun⟩, rfl, nofun, ?_, ?_⟩
    · rw [magnitudeText, if_pos hmagnitude, hpoint]
      rfl
    · rw [value_shortest_zero]
      exact zero_mul _
  · have hmagnitude := (magnitude_ofBits_eq_zero hn).not.2 hzero
    obtain ⟨hne, hhead, hdigits, hvalue⟩ := significant_spec (digits_shortest_ne_zero hzero hn)
    obtain ⟨s, hexponent, hfraction, htext, hdecimal⟩ := exists_withPoint hne hhead hdigits false
      (significant (shortest (Float.ofBits n.toUInt64))).2
    refine ⟨s, hexponent, ?_, ?_, hdecimal.trans hvalue.symm⟩
    · rw [hfraction]
      exact getLast?_pointFraction_ne_zero (getLast?_significant_ne_zero _) hne _
    · rw [htext, magnitudeText, if_neg hmagnitude, hpoint]
      dsimp only
      rw [if_pos (hpositional _)]

end Layout

end NumberLayout

end Lox
