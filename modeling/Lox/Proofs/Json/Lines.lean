import Lox.Json.Writer

/-!
# The lines of a written document

A written document holds no carriage return: strings spell it out, and nothing else needs one. So a
document that is kept in a file is the same text when its line ends are made alike.
-/

namespace Lox

theorem not_mem_intercalate {c : Char} {separator : String} {texts : List String}
    (hseparator : c ∉ separator.toList) (htexts : ∀ text ∈ texts, c ∉ text.toList) :
    c ∉ (String.intercalate separator texts).toList := by
  induction texts with
  | nil => simp
  | cons text rest ih =>
    obtain ⟨htext, hrest⟩ := List.forall_mem_cons.1 htexts
    cases rest with
    | nil => simpa using htext
    | cons next rest =>
      rw [String.intercalate_cons_cons, String.toList_append, String.toList_append]
      simp only [List.mem_append, not_or]
      exact ⟨⟨htext, hseparator⟩, ih hrest⟩

/-! ## Numbers -/

section Numerals

variable {c : Char}

theorem not_mem_toDigits (hdigit : c.isDigit = false) (n : Nat) : c ∉ Nat.toDigits 10 n := by
  intro hmem
  cases hdigit.symm.trans (Nat.isDigit_of_mem_toDigits (by decide) (by decide) hmem)

theorem not_mem_repr (hdigit : c.isDigit = false) (n : Nat) : c ∉ n.repr.toList := by
  rw [Nat.repr_eq_ofList_toDigits, String.toList_ofList]
  exact not_mem_toDigits hdigit n

theorem not_mem_int (hdigit : c.isDigit = false) (hminus : c ≠ '-') (n : Int) :
    c ∉ (toString n).toList := by
  rw [Int.toString_eq_repr, Int.repr_eq_if]
  split
  · exact not_mem_repr hdigit _
  · have hsize := not_mem_repr hdigit (-n).toNat
    rw [String.toList_append, List.mem_append, not_or]
    exact ⟨fun hsign => hminus (List.mem_singleton.1 hsign), hsize⟩

theorem not_mem_hexDigits (hc : ∀ k < 16, c ≠ Nat.digitChar k) (width n : Nat) :
    c ∉ Text.hexDigits width n := by
  induction width generalizing n with
  | zero => exact List.not_mem_nil
  | succ width ih =>
    have hlast := hc (n % 16) (Nat.mod_lt n (by decide))
    rw [Text.hexDigits, List.mem_append, List.mem_singleton, not_or]
    exact ⟨ih (n / 16), hlast⟩

end Numerals

namespace NumberLayout

variable {digits : List Char}

theorem return_not_mem_significant (d : Decimal) : '\r' ∉ (significant d).1 := by
  intro hmem
  have hdrop := (List.dropWhile_suffix _).subset (List.mem_reverse.1 hmem)
  exact not_mem_toDigits (by decide) d.digits (List.mem_reverse.1 hdrop)

theorem return_not_mem_withPoint (hdigits : '\r' ∉ digits) (pointZero : Bool) (before : Int) :
    '\r' ∉ withPoint pointZero digits before := by
  have htake : '\r' ∉ digits.take before.toNat := fun h => hdigits (List.mem_of_mem_take h)
  have hdrop : '\r' ∉ digits.drop before.toNat := fun h => hdigits (List.mem_of_mem_drop h)
  unfold withPoint
  split
  · simp [hdigits]
  · split
    · cases pointZero <;> simp [hdigits]
    · simp [htake, hdrop]

theorem return_not_mem_withExponent (hdigits : '\r' ∉ digits) (exponent : Int) :
    '\r' ∉ withExponent digits exponent := by
  have hpower := @not_mem_toDigits '\r' (by decide) exponent.natAbs
  have hsign : '\r' ≠ if exponent < 0 then '-' else '+' := by split <;> decide
  have hpadded : '\r' ∉ (if (Nat.toDigits 10 exponent.natAbs).length < 2 then
      '0' :: Nat.toDigits 10 exponent.natAbs else Nat.toDigits 10 exponent.natAbs) := by
    split
    · simp [hpower]
    · exact hpower
  simp only [withExponent, List.mem_append, not_or]
  refine ⟨⟨?_, ?_⟩, hpadded⟩
  · split
    · decide
    · exact hdigits
    · rw [List.mem_cons, not_or] at hdigits
      simp [hdigits.1, hdigits.2]
  · simp [hsign]

theorem return_not_mem_write {layout : NumberLayout} (hinfinity : '\r' ∉ layout.infinity.toList)
    (hnotANumber : '\r' ∉ layout.notANumber.toList) (x : Float) :
    '\r' ∉ (layout.write x).toList := by
  have hdigits := return_not_mem_significant (Decimal.shortest x)
  have hmagnitude : '\r' ∉ layout.magnitudeText x := by
    unfold magnitudeText
    split
    · cases layout.pointZero <;> simp
    · dsimp only
      split
      · exact return_not_mem_withPoint hdigits _ _
      · exact return_not_mem_withExponent hdigits _
  have hsign : '\r' ∉ (if signBit x then "-" else "").toList := by split <;> decide
  unfold write
  split
  · exact hnotANumber
  · dsimp only
    split
    · simpa using ⟨hsign, hinfinity⟩
    · simpa using ⟨hsign, hmagnitude⟩

end NumberLayout

namespace Json

/-! ## Strings -/

theorem return_not_mem_escapedChar (c : Char) : '\r' ∉ escapedChar c := by
  have hhex := @not_mem_hexDigits '\r' (by decide) 4 c.toNat
  unfold escapedChar
  split
  · next hc =>
    simp only [Bool.or_eq_true, decide_eq_true_eq] at hc
    rcases hc with rfl | rfl <;> decide
  · split
    · decide
    · split
      · decide
      · next hreturn =>
        split
        · decide
        · split
          · decide
          · split
            · decide
            · split
              · simp [hhex]
              · simpa using Ne.symm hreturn

theorem return_not_mem_stringText (s : String) : '\r' ∉ (stringText s).toList := by
  simp [stringText, return_not_mem_escapedChar]

/-! ## Documents -/

theorem return_not_mem_itemBreak (depth : Option Nat) : '\r' ∉ (itemBreak depth).toList := by
  cases depth <;> simp [itemBreak]

theorem return_not_mem_itemComma (depth : Option Nat) : '\r' ∉ (itemComma depth).toList := by
  cases depth with
  | none => decide
  | some depth => simp [itemComma, return_not_mem_itemBreak]

mutual
/-- No written document holds a carriage return. -/
theorem return_not_mem_textAt (depth : Option Nat) : ∀ document : Json,
    '\r' ∉ (document.textAt depth).toList
  | null => by simp [textAt]
  | bool value => by cases value <;> simp [textAt]
  | int n => not_mem_int (by decide) (by decide) n
  | float x => NumberLayout.return_not_mem_write (by decide) (by decide) x
  | str s => return_not_mem_stringText s
  | arr [] => by simp [textAt]
  | arr (item :: rest) => by
    have hinside := not_mem_intercalate (return_not_mem_itemComma (depth.map (· + 1)))
      (return_not_mem_itemTexts (depth.map (· + 1)) (item :: rest))
    simp [textAt, return_not_mem_itemBreak, hinside, -String.toList_intercalate]
  | obj [] => by simp [textAt]
  | obj (field :: rest) => by
    have hinside := not_mem_intercalate (return_not_mem_itemComma (depth.map (· + 1)))
      (return_not_mem_fieldTexts (depth.map (· + 1)) (field :: rest))
    simp [textAt, return_not_mem_itemBreak, hinside, -String.toList_intercalate]
theorem return_not_mem_itemTexts (depth : Option Nat) : ∀ items : List Json,
    ∀ text ∈ itemTexts depth items, '\r' ∉ text.toList
  | [] => by simp [itemTexts]
  | item :: rest => by
    rw [itemTexts, List.forall_mem_cons]
    exact ⟨return_not_mem_textAt depth item, return_not_mem_itemTexts depth rest⟩
theorem return_not_mem_fieldTexts (depth : Option Nat) : ∀ fields : List (String × Json),
    ∀ text ∈ fieldTexts depth fields, '\r' ∉ text.toList
  | [] => by simp [fieldTexts]
  | (key, value) :: rest => by
    rw [fieldTexts, List.forall_mem_cons]
    refine ⟨?_, return_not_mem_fieldTexts depth rest⟩
    simp [return_not_mem_stringText, return_not_mem_textAt depth value]
end

end Json

end Lox
