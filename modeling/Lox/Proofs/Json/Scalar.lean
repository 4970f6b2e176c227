import Lox.Json.Reader
import Lox.Json.Writer
import Lox.Proofs.Decimal.Spelling

/-!
# Scalars are read back

The text of a string, of a number or of a word is read back as what it was written for, with all
that follows it left over. Behind a number there has to be something that does not go on with it.
-/

namespace Lox.Json

open Decimal

/-! ## Strings -/

section

variable {start read rest : List Char}

theorem stringRest_skip (skip : Nat) {skipped : List Char} (hlength : skipped.length = skip) :
    stringRest start read skip (skipped ++ rest) = stringRest start read 0 rest := by
  induction skip generalizing skipped with
  | zero =>
    rw [List.eq_nil_of_length_eq_zero hlength]
    rfl
  | succ skip ih =>
    obtain ⟨c, skipped, rfl⟩ := List.exists_cons_of_length_eq_add_one hlength
    rw [List.cons_append, stringRest]
    exact ih (by simpa using hlength)

theorem hexValue?_digitChar {k : Nat} (hk : k < 16) : hexValue? (Nat.digitChar k) = some k := by
  have hall : ∀ k < 16, hexValue? (Nat.digitChar k) = some k := by decide
  exact hall k hk

/-- A control character without a letter of its own is read back from its code unit. -/
theorem codeUnit?_hexDigits {n : Nat} (hn : n < 0x20) {c : Char} :
    codeUnit? (Text.hexDigits 4 n ++ c :: rest) = some n := by
  have hfirst := hexValue?_digitChar (Nat.mod_lt (n / 16 / 16 / 16) (show 0 < 16 by decide))
  have hsecond := hexValue?_digitChar (Nat.mod_lt (n / 16 / 16) (show 0 < 16 by decide))
  have hthird := hexValue?_digitChar (Nat.mod_lt (n / 16) (show 0 < 16 by decide))
  have hfourth := hexValue?_digitChar (Nat.mod_lt n (show 0 < 16 by decide))
  simp only [Text.hexDigits, List.nil_append, List.cons_append, codeUnit?, hexFour?, hfirst, hsecond,
    hthird, hfourth, Option.bind_eq_bind, Option.bind_some, Option.pure_def, Option.some_inj]
  omega

theorem stringRest_quote :
    stringRest start read 0 ('"' :: rest) = .ok (String.ofList read.reverse, rest) := by
  rw [stringRest.eq_def]
  exact if_pos rfl

theorem stringRest_plain {c : Char} (hquote : c ≠ '"') (hcontrol : ¬ c.toNat < 0x20)
    (hbackslash : c ≠ '\\') :
    stringRest start read 0 (c :: rest) = stringRest start (c :: read) 0 rest := by
  rw [stringRest.eq_def]
  dsimp only
  rw [if_neg hquote, if_neg hcontrol, if_pos (by simpa using hbackslash)]

theorem stringRest_letter {letter meant : Char} (hletter : simpleEscape? letter = some meant) :
    stringRest start read 0 ('\\' :: letter :: rest) = stringRest start (meant :: read) 0 rest := by
  have hunit : letter ≠ 'u' := by
    rintro rfl
    cases hletter
  rw [stringRest, if_neg (by decide), if_neg (by decide), if_neg (by decide), hletter]
  · exact @stringRest_skip start (meant :: read) rest 1 [letter] rfl
  · exact hunit

theorem stringRest_codeUnit {c next : Char} (hc : c.toNat < 0x20) :
    stringRest start read 0 ('\\' :: 'u' :: Text.hexDigits 4 c.toNat ++ next :: rest) =
      stringRest start (c :: read) 0 (next :: rest) := by
  have hhigh : isHighHalf c.toNat = false := by
    simp only [isHighHalf, Bool.and_eq_false_iff, decide_eq_false_iff_not]
    omega
  have hlow : isLowHalf c.toNat = false := by
    simp only [isLowHalf, Bool.and_eq_false_iff, decide_eq_false_iff_not]
    omega
  rw [List.cons_append, List.cons_append, stringRest, if_neg (by decide), if_neg (by decide),
    if_neg (by decide), codeUnit?_hexDigits hc]
  dsimp only
  rw [if_neg (by simp [hhigh]), if_neg (by simp [hlow]), Char.ofNat_toNat]
  exact @stringRest_skip start (c :: read) (next :: rest) 5 ('u' :: Text.hexDigits 4 c.toNat) rfl

theorem stringRest_escapedChar (c : Char) {next : Char} :
    stringRest start read 0 (escapedChar c ++ next :: rest) =
      stringRest start (c :: read) 0 (next :: rest) := by
  unfold escapedChar
  split
  · next hc =>
    simp only [Bool.or_eq_true, decide_eq_true_eq] at hc
    rcases hc with rfl | rfl <;> exact stringRest_letter rfl
  · next hplain =>
    simp only [Bool.or_eq_true, decide_eq_true_eq, not_or] at hplain
    split
    · next hc => exact hc ▸ stringRest_letter rfl
    · split
      · next hc => exact hc ▸ stringRest_letter rfl
      · split
        · next hc => exact hc ▸ stringRest_letter rfl
        · split
          · next hc => exact hc ▸ stringRest_letter rfl
          · split
            · next hc => exact hc ▸ stringRest_letter rfl
            · split
              · next hc => exact stringRest_codeUnit hc
              · next hc =>
                exact stringRest_plain hplain.1 hc hplain.2

/-- A string is read back from its escaped characters, up to its closing quote. -/
theorem stringRest_flatMap_escapedChar (cs : List Char) :
    stringRest start read 0 (cs.flatMap escapedChar ++ '"' :: rest) =
      .ok (String.ofList (read.reverse ++ cs), rest) := by
  induction cs generalizing read with
  | nil => rw [List.flatMap_nil, List.nil_append, stringRest_quote, List.append_nil]
  | cons c cs ih =>
    obtain ⟨next, after, hafter⟩ : ∃ next after,
        cs.flatMap escapedChar ++ '"' :: rest = next :: after :=
      List.exists_cons_of_ne_nil (by simp)
    rw [List.flatMap_cons, List.append_assoc, hafter, stringRest_escapedChar, ← hafter, ih]
    simp

end

/-! ## Numbers -/

/-- What follows does not go on with a number. -/
def EndsNumber (rest : List Char) : Prop :=
  ∀ c ∈ rest.head?, c.isDigit = false ∧ c ≠ '.' ∧ c ≠ 'e' ∧ c ≠ 'E'

section

variable {rest : List Char}

theorem takeWhile_isDigit {digits : List Char} (hdigits : ∀ c ∈ digits, c.isDigit = true)
    (hrest : ∀ c ∈ rest.head?, c.isDigit = false) :
    (digits ++ rest).takeWhile Char.isDigit = digits ∧
      (digits ++ rest).dropWhile Char.isDigit = rest := by
  rw [List.takeWhile_append_of_pos hdigits, List.dropWhile_append_of_pos hdigits]
  cases rest with
  | nil => simp
  | cons c rest =>
    have hc : c.isDigit = false := hrest c rfl
    simp [hc]

theorem fractionPart_eq {fraction after : List Char}
    (hfraction : ∀ c ∈ fraction, c.isDigit = true) (hne : fraction ≠ [])
    (hafter : ∀ c ∈ after.head?, c.isDigit = false) :
    fractionPart ('.' :: (fraction ++ after)) = (fraction, after) := by
  obtain ⟨htake, hdrop⟩ := takeWhile_isDigit hfraction hafter
  simp [fractionPart, htake, hdrop, hne]

theorem fractionPart_of_ne {cs : List Char} (hcs : cs.head? ≠ some '.') :
    fractionPart cs = ([], cs) := by
  unfold fractionPart
  split
  · exact absurd rfl hcs
  · rfl

theorem exponentPart?_eq {digits : List Char} (negative : Bool)
    (hdigits : ∀ c ∈ digits, c.isDigit = true) (hne : digits ≠ [])
    (hrest : ∀ c ∈ rest.head?, c.isDigit = false) :
    exponentPart? ('e' :: (if negative then '-' else '+') :: (digits ++ rest)) =
      some (if negative then -(digitsValue digits : Int) else digitsValue digits, rest) := by
  obtain ⟨htake, hdrop⟩ := takeWhile_isDigit hdigits hrest
  cases negative <;> simp [exponentPart?, htake, hdrop, hne]

theorem exponentPart?_of_ends (hrest : EndsNumber rest) : exponentPart? rest = none := by
  cases rest with
  | nil => rfl
  | cons c rest =>
    obtain ⟨-, -, hlower, hupper⟩ := hrest c rfl
    simp [exponentPart?, hlower, hupper]

theorem wholePart_eq (s : Spelling) {tail : List Char}
    (htail : ∀ c ∈ tail.head?, c.isDigit = false) : wholePart (s.whole ++ tail) = s.whole := by
  have htake := (takeWhile_isDigit s.whole_isDigit htail).1
  rcases s.whole_leads with hwhole | ⟨hne, hhead⟩
  · rw [hwhole]
    rfl
  · unfold wholePart
    split
    · next rest htext =>
      rw [← List.head?_append_of_ne_nil _ hne, htext] at hhead
      exact absurd rfl hhead
    · exact htake

theorem whole_ne_nil (s : Spelling) : s.whole.isEmpty = false := by
  rcases s.whole_leads with hwhole | ⟨hne, -⟩
  · rw [hwhole]
    rfl
  · simpa using hne

theorem unsignedNumber_int (s : Spelling) (negative : Bool) (hrest : EndsNumber rest)
    (hlength : s.whole.length ≤ Numeral.digitLimit) :
    unsignedNumber negative (s.whole ++ rest) =
      .ok (.int (if negative then -(digitsValue s.whole : Int) else digitsValue s.whole), rest) := by
  have hwhole := wholePart_eq s fun c hc => (hrest c hc).1
  have hfraction : fractionPart rest = ([], rest) := by
    refine fractionPart_of_ne fun hpoint => ?_
    exact (hrest '.' hpoint).2.1 rfl
  have hexponent := exponentPart?_of_ends hrest
  simp [unsignedNumber, hwhole, whole_ne_nil s, hfraction, hexponent, Nat.not_lt.2 hlength]

theorem head?_exponentText (s : Spelling) (hrest : EndsNumber rest) :
    ∀ c ∈ (s.exponentText ++ rest).head?, c.isDigit = false ∧ c ≠ '.' := by
  unfold Spelling.exponentText
  cases s.exponent with
  | none => exact fun c hc => ⟨(hrest c hc).1, (hrest c hc).2.1⟩
  | some power =>
    rintro _ ⟨⟩
    decide

theorem fractionPart_text (s : Spelling) (hrest : EndsNumber rest) :
    fractionPart (s.fractionText ++ (s.exponentText ++ rest)) =
      (s.fraction, s.exponentText ++ rest) := by
  have hafter := head?_exponentText s hrest
  unfold Spelling.fractionText
  split
  · next hnil =>
    rw [List.nil_append, hnil]
    exact fractionPart_of_ne fun hpoint => (hafter '.' hpoint).2 rfl
  · next hne =>
    rw [List.cons_append]
    exact fractionPart_eq s.fraction_isDigit hne fun c hc => (hafter c hc).1

theorem exponentPart?_text (s : Spelling) (hrest : EndsNumber rest) :
    exponentPart? (s.exponentText ++ rest) = s.exponent.map fun _ => (s.power, rest) := by
  have hdigits := s.exponent_isDigit
  unfold Spelling.exponentText Spelling.power
  cases hexponent : s.exponent with
  | none => exact exponentPart?_of_ends hrest
  | some power =>
    obtain ⟨hne, hpower⟩ := hdigits power hexponent
    exact exponentPart?_eq power.1 hpower hne fun c hc => (hrest c hc).1

/-- The text of a float is read as the float that it spells. -/
theorem unsignedNumber_text (s : Spelling) (negative : Bool) (hfloat : s.IsFloat)
    (hrest : EndsNumber rest) :
    unsignedNumber negative (s.text ++ rest) =
      .ok (.float (if negative then -s.decimal.toFloat else s.decimal.toFloat), rest) := by
  have hfraction := fractionPart_text s hrest
  have hexponent := exponentPart?_text s hrest
  have htail : ∀ c ∈ (s.fractionText ++ (s.exponentText ++ rest)).head?, c.isDigit = false := by
    unfold Spelling.fractionText
    split
    · exact fun c hc => (head?_exponentText s hrest c hc).1
    · rintro _ ⟨⟩
      rfl
  have hpower : ((s.exponent.map fun _ => (s.power, rest)).map (·.1)).getD 0 = s.power := by
    unfold Spelling.power
    cases s.exponent <;> rfl
  have hleft : ((s.exponent.map fun _ => (s.power, rest)).map (·.2)).getD (s.exponentText ++ rest) =
      rest := by
    unfold Spelling.exponentText
    cases s.exponent <;> rfl
  rw [Spelling.text, List.append_assoc, List.append_assoc]
  simp only [unsignedNumber, wholePart_eq s htail, whole_ne_nil s, Bool.false_eq_true, if_false,
    List.drop_left, hfraction, hexponent]
  split
  · next hnil hnone =>
    rw [Option.map_eq_none_iff] at hnone
    exact absurd hfloat (by simp [Spelling.IsFloat, hnil, hnone])
  · rw [hpower, hleft]
    rfl

end

/-! ## Words and scalars -/

section

variable {rest : List Char}

theorem word?_of_isDigit {c : Char} (hc : c.isDigit = true) : word? (c :: rest) = none := by
  have hne : ∀ d : Char, d.isDigit = false → (d == c) = false := by
    intro d hd
    rw [beq_eq_false_iff_ne]
    rintro rfl
    rw [hc] at hd
    cases hd
  simp [word?, words, List.isPrefixOf, hne]

theorem word?_of_minus {c : Char} (hc : c.isDigit = true) : word? ('-' :: c :: rest) = none := by
  have hne : ('I' == c) = false := by
    rw [beq_eq_false_iff_ne]
    rintro rfl
    cases hc
  simp [word?, words, List.isPrefixOf, hne]

theorem scalar_of_isDigit {c : Char} (hc : c.isDigit = true) :
    scalar (c :: rest) = unsignedNumber false (c :: rest) := by
  have hminus : c ≠ '-' := by
    rintro rfl
    cases hc
  rw [scalar, word?_of_isDigit hc]
  exact fun _ heq => hminus (List.cons.inj heq).1

theorem scalar_of_minus {c : Char} (hc : c.isDigit = true) :
    scalar ('-' :: c :: rest) = unsignedNumber true (c :: rest) := by
  rw [scalar, word?_of_minus hc]

def Spelling.ofNat (n : Nat) : Spelling where
  whole := Nat.toDigits 10 n
  fraction := []
  exponent := none
  whole_isDigit _ := isDigit_of_mem_toDigits
  whole_leads := by
    by_cases hn : n = 0
    · exact .inl (hn ▸ rfl)
    · exact .inr ⟨Nat.toDigits_ne_nil, head?_toDigits_ne_zero hn⟩
  fraction_isDigit := nofun
  exponent_isDigit := nofun

/-- The characters that a number or a word begins with. -/
def StartsScalar (c : Char) : Prop :=
  c.isDigit = true ∨ c ∈ ['-', 'I', 'n', 't', 'f']

/-- Some text is read as a scalar, whatever ends it. -/
structure ReadsScalar (text : List Char) (document : Json) : Prop where
  starts : ∃ c tail, text = c :: tail ∧ StartsScalar c
  reads : ∀ rest, EndsNumber rest → scalar (text ++ rest) = .ok (document, rest)

theorem readsScalar_null : ReadsScalar "null".toList .null :=
  ⟨⟨'n', _, rfl, .inr (by decide)⟩, fun _ _ => rfl⟩

theorem readsScalar_bool (value : Bool) :
    ReadsScalar (if value then "true" else "false").toList (.bool value) := by
  cases value with
  | true => exact ⟨⟨'t', _, rfl, .inr (by decide)⟩, fun _ _ => rfl⟩
  | false => exact ⟨⟨'f', _, rfl, .inr (by decide)⟩, fun _ _ => rfl⟩

/-- An integer is read back unless it has too many digits. -/
theorem readsScalar_int {n : Int}
    (hlength : (Nat.toDigits 10 n.natAbs).length ≤ Numeral.digitLimit) :
    ReadsScalar (toString n).toList (.int n) := by
  obtain ⟨c, digits, hdigits⟩ := List.exists_cons_of_ne_nil
    (Nat.toDigits_ne_nil (n := n.natAbs) (b := 10))
  have hc : c.isDigit = true := isDigit_of_mem_toDigits (hdigits ▸ List.mem_cons_self)
  have hread : ∀ negative rest, EndsNumber rest → unsignedNumber negative (c :: digits ++ rest) =
      .ok (.int (if negative then -(n.natAbs : Int) else n.natAbs), rest) := by
    intro negative rest hrest
    have hint := unsignedNumber_int (Spelling.ofNat n.natAbs) negative hrest hlength
    rwa [show (Spelling.ofNat n.natAbs).whole = c :: digits from hdigits, ← hdigits,
      digitsValue_toDigits, hdigits] at hint
  have htext : ∀ k : Nat, k = n.natAbs → k.repr.toList = c :: digits := by
    rintro _ rfl
    rw [Nat.repr_eq_ofList_toDigits, String.toList_ofList, hdigits]
  rw [Int.toString_eq_repr, Int.repr_eq_if]
  split
  · next hn =>
    rw [htext n.toNat (by omega)]
    refine ⟨⟨c, digits, rfl, .inl hc⟩, fun rest hrest => ?_⟩
    rw [List.cons_append, scalar_of_isDigit hc, ← List.cons_append, hread false rest hrest,
      if_neg (by decide), Int.natAbs_of_nonneg hn]
  · next hn =>
    rw [String.toList_append, htext (-n).toNat (by omega)]
    refine ⟨⟨'-', c :: digits, rfl, .inr (by decide)⟩, fun rest hrest => ?_⟩
    change scalar ('-' :: c :: (digits ++ rest)) = _
    rw [scalar_of_minus hc, ← List.cons_append, hread true rest hrest, if_pos rfl,
      Int.ofNat_natAbs_of_nonpos (by omega), Int.neg_neg]

theorem infinity_eq_ofBits : (1.0 / 0.0 : Float) = Float.ofBits infinityBits.toUInt64 := by
  decide +kernel

theorem isInf_infinity : (Float.ofBits infinityBits.toUInt64).isInf = true := by
  decide +kernel

/-- A float without a sign is read back. -/
theorem readsScalar_float {x : Float} (hx : Unsigned x) :
    ReadsScalar (textLayout.write x).toList (.float x) := by
  obtain ⟨n, hn, rfl⟩ := hx
  rw [NumberLayout.write, isNaN_ofBits hn, signBit_ofBits hn, if_neg (by decide)]
  by_cases hinfinity : n = infinityBits
  · subst hinfinity
    rw [isInf_infinity, if_pos rfl, ← infinity_eq_ofBits]
    exact ⟨⟨'I', _, rfl, .inr (by decide)⟩, fun _ _ => rfl⟩
  · have hlt : n < infinityBits := by omega
    obtain ⟨s, hfloat, htext, hdecimal⟩ := @NumberLayout.exists_spelling textLayout rfl n hlt
    obtain ⟨c, digits, hdigits⟩ := List.exists_cons_of_ne_nil (by simpa using whole_ne_nil s)
    have hc : c.isDigit = true := s.whole_isDigit c (hdigits ▸ List.mem_cons_self)
    have hstarts : s.text = c :: (digits ++ s.fractionText ++ s.exponentText) := by
      rw [Spelling.text, hdigits]
      rfl
    have hwritten : ("" ++ String.ofList (textLayout.magnitudeText (Float.ofBits n.toUInt64))).toList =
        s.text := by
      rw [String.empty_append, String.toList_ofList, htext]
    rw [isInf_ofBits hlt, if_neg (by decide), if_neg (by decide), hwritten]
    refine ⟨⟨c, _, hstarts, .inl hc⟩, fun rest hrest => ?_⟩
    rw [hstarts, List.cons_append, scalar_of_isDigit hc, ← List.cons_append, ← hstarts,
      unsignedNumber_text s false hfloat hrest, hdecimal]
    rfl

end

end Lox.Json
