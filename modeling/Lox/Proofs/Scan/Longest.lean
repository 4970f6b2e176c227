import Lox.Token.Piece

/-!
# Every piece is the longest

What the pieces of a source text are, said without cutting: `Spelled` lists the kinds of pieces with
the texts that each of them may have, and a piece stands before some text if no longer piece could
stand in its place (`Stands`). A text is made of such pieces in exactly one way, which is how it is
cut (`stands_pieces`, `eq_pieces`).
-/

namespace Lox.Piece

@[simp] theorem text_blank (text : List Char) : (blank text).text = text := rfl

@[simp] theorem text_comment (text : List Char) : (comment text).text = text := rfl

@[simp] theorem text_lexeme (kind : Kind) (text : List Char) : (lexeme kind text).text = text := rfl

@[simp] theorem text_openString (text : List Char) : (openString text).text = text := rfl

@[simp] theorem text_rejected (c : Char) : (rejected c).text = [c] := rfl

/-- A letter or an underscore, and letters, digits and underscores after it. -/
def IsWord : List Char → Prop
  | [] => False
  | c :: cs => startsWord c = true ∧ ∀ d ∈ cs, continuesWord d = true

/-- The texts that a piece of each kind may have, rejected characters apart. -/
inductive Spelled : Piece → Prop where
  | blank {text : List Char} (hsome : text ≠ []) (hall : ∀ c ∈ text, isSeparator c = true) :
    Spelled (.blank text)
  | comment {body : List Char} (hbody : '\n' ∉ body) : Spelled (.comment ('/' :: '/' :: body))
  | reserved {kind : Kind} {word : List Char} (hword : IsWord word) (hkind : kind ∈ Kind.reserved)
    (htext : kind.text = String.ofList word) : Spelled (.lexeme kind word)
  | identifier {word : List Char} (hword : IsWord word)
    (hfree : ∀ kind ∈ Kind.reserved, kind.text ≠ String.ofList word) :
    Spelled (.lexeme .identifier word)
  | integer {digits : List Char} (hsome : digits ≠ []) (hall : ∀ d ∈ digits, d.isDigit = true) :
    Spelled (.lexeme .number digits)
  | fraction {whole part : List Char} (hwhole : whole ≠ [])
    (hall : ∀ d ∈ whole, d.isDigit = true) (hpart : part ≠ [])
    (hall' : ∀ d ∈ part, d.isDigit = true) : Spelled (.lexeme .number (whole ++ '.' :: part))
  | string {body : List Char} (hbody : '"' ∉ body) : Spelled (.lexeme .string ('"' :: body ++ ['"']))
  | openString {body : List Char} (hbody : '"' ∉ body) : Spelled (.openString ('"' :: body))
  | mark {kind : Kind} {c : Char} (hmark : mark? c = some kind) : Spelled (.lexeme kind [c])
  | markWithEqual {kind : Kind} {c : Char} (hmark : markWithEqual? c = some kind) :
    Spelled (.lexeme kind [c, '='])

/-- A piece is what stands at the front of its text and the text after it: it is spelled right, and
nothing that is spelled right is longer. A rejected character is one that nothing begins with. -/
def Stands (piece : Piece) (after : List Char) : Prop :=
  match piece with
  | rejected c => ∀ other : Piece, other.Spelled → ¬ other.text <+: c :: after
  | _ => piece.Spelled ∧
      ∀ other : Piece, other.Spelled → other.text <+: piece.text ++ after →
        other.text.length ≤ piece.text.length

/-! ## First characters -/

section First

variable {c : Char} {kind : Kind}

theorem isSeparator_eq_true : isSeparator c = true ↔ c = ' ' ∨ c = '\t' ∨ c = '\r' ∨ c = '\n' := by
  simp [isSeparator, or_assoc]

theorem not_isSeparator_of_startsWord (hstart : startsWord c = true) : isSeparator c = false := by
  rw [Bool.eq_false_iff, ne_eq, isSeparator_eq_true]
  rintro (rfl | rfl | rfl | rfl) <;> exact absurd hstart (by decide)

theorem not_isSeparator_of_isDigit (hdigit : c.isDigit = true) : isSeparator c = false := by
  rw [Bool.eq_false_iff, ne_eq, isSeparator_eq_true]
  rintro (rfl | rfl | rfl | rfl) <;> exact absurd hdigit (by decide)

/-- Words begin beyond the digits. -/
theorem le_toNat_of_startsWord (hstart : startsWord c = true) : 'A'.toNat ≤ c.toNat := by
  rw [startsWord, Bool.or_eq_true, decide_eq_true_eq] at hstart
  rcases hstart with hletter | rfl
  · change (decide (c.val ≥ 'A'.val ∧ c.val ≤ 'Z'.val) ||
      (decide (c.val ≥ 'a'.val) && decide (c.val ≤ 'z'.val))) = true at hletter
    simp only [Bool.or_eq_true, Bool.and_eq_true, decide_eq_true_eq, ge_iff_le,
      UInt32.le_iff_toNat_le] at hletter
    rcases hletter with ⟨hlow, -⟩ | ⟨hlow, -⟩
    · exact hlow
    · exact Nat.le_trans (by decide) hlow
  · decide

theorem not_startsWord_of_isDigit (hdigit : c.isDigit = true) : startsWord c = false := by
  rw [Bool.eq_false_iff]
  intro hstart
  have hlow := le_toNat_of_startsWord hstart
  have hhigh := (Char.isDigit_iff_toNat.1 hdigit).2
  exact absurd (Nat.le_trans hlow hhigh) (by decide)

/-- The characters that a mark may begin with begin nothing else. -/
theorem of_mark? (hmark : mark? c = some kind) :
    isSeparator c = false ∧ startsWord c = false ∧ c.isDigit = false ∧ c ≠ '"' := by
  unfold mark? at hmark
  split at hmark
  case h_16 => cases hmark
  all_goals decide

theorem mark?_of_markWithEqual? (hmark : markWithEqual? c = some kind) :
    ∃ kind', mark? c = some kind' := by
  unfold markWithEqual? at hmark
  split at hmark
  case h_5 => cases hmark
  all_goals exact ⟨_, rfl⟩

end First

/-! ## Which way a text is cut -/

section Ways

variable {c : Char} (cs : List Char)

theorem cut_separator (hc : isSeparator c = true) :
    cut c cs = (blank (c :: cs.takeWhile isSeparator), cs.dropWhile isSeparator) := by
  simp [cut, hc]

theorem cut_word (hc : startsWord c = true) : cut c cs = cutWord c cs := by
  simp [cut, hc, not_isSeparator_of_startsWord hc]

theorem cut_digit (hc : c.isDigit = true) : cut c cs = cutNumber c cs := by
  simp [cut, hc, not_isSeparator_of_isDigit hc, not_startsWord_of_isDigit hc]

theorem cut_quote : cut '"' cs = cutString cs := rfl

theorem cut_mark {kind : Kind} (hc : mark? c = some kind) : cut c cs = cutMark c cs := by
  obtain ⟨hseparator, hword, hdigit, hquote⟩ := of_mark? hc
  simp [cut, hseparator, hword, hdigit, hquote]

end Ways

/-! ## A piece alone is cut as itself -/

theorem eq_reserved_of_text {kind kind' : Kind} (hkind : kind ∈ Kind.reserved)
    (hkind' : kind' ∈ Kind.reserved) (htext : kind.text = kind'.text) : kind = kind' := by
  have hall : ∀ a ∈ Kind.reserved, ∀ b ∈ Kind.reserved, a.text = b.text → a = b := by decide
  exact hall kind hkind kind' hkind' htext

theorem ofWord_of_reserved {kind : Kind} {word : String} (hkind : kind ∈ Kind.reserved)
    (htext : kind.text = word) : Kind.ofWord word = kind := by
  rw [Kind.ofWord]
  cases hfind : Kind.reserved.find? fun kind => kind.text = word with
  | none =>
    rw [List.find?_eq_none] at hfind
    exact absurd htext (by simpa using hfind kind hkind)
  | some found =>
    have hfound : found.text = word := by simpa using List.find?_some hfind
    rw [Option.getD_some]
    exact eq_reserved_of_text (List.mem_of_find?_eq_some hfind) hkind (hfound.trans htext.symm)

theorem ofWord_of_free {word : String} (hfree : ∀ kind ∈ Kind.reserved, kind.text ≠ word) :
    Kind.ofWord word = .identifier := by
  rw [Kind.ofWord, List.find?_eq_none.2, Option.getD_none]
  intro kind hkind
  simpa using hfree kind hkind

section Alone

variable {α : Type} {p : α → Bool} {xs : List α}

theorem takeWhile_of_all (hall : ∀ x ∈ xs, p x = true) : xs.takeWhile p = xs := by
  simpa using @List.takeWhile_append_of_pos _ p xs [] hall

theorem dropWhile_of_all (hall : ∀ x ∈ xs, p x = true) : xs.dropWhile p = [] := by
  simpa using @List.dropWhile_append_of_pos _ p xs [] hall

end Alone

theorem cutWord_of_isWord {c : Char} {cs : List Char} (hword : IsWord (c :: cs)) :
    cutWord c cs = (lexeme (Kind.ofWord (String.ofList (c :: cs))) (c :: cs), []) := by
  rw [cutWord, takeWhile_of_all hword.2, dropWhile_of_all hword.2]

theorem cutNumber_of_fraction {c d : Char} {cs part : List Char}
    (hall : ∀ x ∈ cs, x.isDigit = true) (hpart : ∀ x ∈ d :: part, x.isDigit = true) :
    cutNumber c (cs ++ '.' :: d :: part) = (lexeme .number (c :: cs ++ '.' :: d :: part), []) := by
  obtain ⟨hd, hpart⟩ := List.forall_mem_cons.1 hpart
  have hdrop : (cs ++ '.' :: d :: part).dropWhile Char.isDigit = '.' :: d :: part := by
    rw [List.dropWhile_append_of_pos hall]
    rfl
  have htake : (cs ++ '.' :: d :: part).takeWhile Char.isDigit = cs := by
    rw [List.takeWhile_append_of_pos hall, List.takeWhile_cons_of_neg (by decide), List.append_nil]
  simp only [cutNumber, hdrop, htake, hd, if_true, takeWhile_of_all hpart, dropWhile_of_all hpart]

theorem ne_quote_of_not_mem {body : List Char} (hbody : '"' ∉ body) :
    ∀ d ∈ body, (d != '"') = true := by
  intro d hd
  simp only [bne_iff_ne, ne_eq]
  rintro rfl
  exact hbody hd

/-- Cutting the text of a piece gives that piece. -/
theorem cut_of_spelled {piece : Piece} (hpiece : piece.Spelled) {c : Char} {cs : List Char}
    (htext : piece.text = c :: cs) : cut c cs = (piece, []) := by
  cases hpiece with
  | blank _ hall =>
    cases htext
    obtain ⟨hc, hcs⟩ := List.forall_mem_cons.1 hall
    rw [cut_separator cs hc, takeWhile_of_all hcs, dropWhile_of_all hcs]
  | @comment body hbody =>
    cases htext
    have hall : ∀ d ∈ '/' :: body, (d != '\n') = true := by
      intro d hd
      simp only [bne_iff_ne, ne_eq]
      rintro rfl
      exact hbody (by simpa using hd)
    rw [cut_mark _ rfl, cutMark]
    simp [takeWhile_of_all hall, dropWhile_of_all hall]
  | reserved hword hkind hreserved =>
    cases htext
    rw [cut_word cs hword.1, cutWord_of_isWord hword, ofWord_of_reserved hkind hreserved]
  | identifier hword hfree =>
    cases htext
    rw [cut_word cs hword.1, cutWord_of_isWord hword, ofWord_of_free hfree]
  | integer _ hall =>
    cases htext
    obtain ⟨hc, hcs⟩ := List.forall_mem_cons.1 hall
    simp [cut_digit cs hc, cutNumber, takeWhile_of_all hcs, dropWhile_of_all hcs]
  | @fraction whole part hwhole hall hpart hall' =>
    obtain ⟨w, ws, rfl⟩ := List.exists_cons_of_ne_nil hwhole
    obtain ⟨d, ds, rfl⟩ := List.exists_cons_of_ne_nil hpart
    cases htext
    obtain ⟨hw, hws⟩ := List.forall_mem_cons.1 hall
    rw [cut_digit _ hw]
    exact cutNumber_of_fraction hws hall'
  | @string body hbody =>
    cases htext
    have hall := ne_quote_of_not_mem hbody
    rw [cut_quote, cutString]
    simp [List.takeWhile_append_of_pos hall, List.dropWhile_append_of_pos hall]
  | openString hbody =>
    cases htext
    have hall := ne_quote_of_not_mem hbody
    rw [cut_quote, cutString]
    simp [takeWhile_of_all hall, dropWhile_of_all hall]
  | mark hmark =>
    cases htext
    simp [cut_mark _ hmark, cutMark, hmark]
  | @markWithEqual kind _ hmark =>
    cases htext
    obtain ⟨kind', hmark'⟩ := mark?_of_markWithEqual? hmark
    have hslash : c ≠ '/' := by
      rintro rfl
      cases hmark
    simp [cut_mark _ hmark', cutMark, hmark, hslash]

/-! ## What is cut is spelled right -/

def StartsNothing (c : Char) : Prop :=
  isSeparator c = false ∧ startsWord c = false ∧ c.isDigit = false ∧ c ≠ '"' ∧ mark? c = none

theorem isWord_cutWord {c : Char} (cs : List Char) (hc : startsWord c = true) :
    IsWord (c :: cs.takeWhile continuesWord) :=
  ⟨hc, fun _ hd => List.all_eq_true.1 List.all_takeWhile _ hd⟩

theorem spelled_cutWord {c : Char} (cs : List Char) (hc : startsWord c = true) :
    (cutWord c cs).1.Spelled := by
  have hword := isWord_cutWord cs hc
  rw [cutWord]
  dsimp only
  by_cases hreserved : ∃ kind ∈ Kind.reserved,
      kind.text = String.ofList (c :: cs.takeWhile continuesWord)
  · obtain ⟨kind, hkind, htext⟩ := hreserved
    rw [ofWord_of_reserved hkind htext]
    exact .reserved hword hkind htext
  · have hfree : ∀ kind ∈ Kind.reserved,
        kind.text ≠ String.ofList (c :: cs.takeWhile continuesWord) :=
      fun kind hkind htext => hreserved ⟨kind, hkind, htext⟩
    rw [ofWord_of_free hfree]
    exact .identifier hword hfree

theorem spelled_cutNumber {c : Char} (cs : List Char) (hc : c.isDigit = true) :
    (cutNumber c cs).1.Spelled := by
  have hdigits (xs : List Char) : ∀ d ∈ xs.takeWhile Char.isDigit, d.isDigit = true :=
    fun _ hd => List.all_eq_true.1 List.all_takeWhile _ hd
  have hwhole : ∀ d ∈ c :: cs.takeWhile Char.isDigit, d.isDigit = true :=
    List.forall_mem_cons.2 ⟨hc, hdigits cs⟩
  unfold cutNumber
  split
  · next digit rest hrest =>
    split
    · next hdigit =>
      exact .fraction (List.cons_ne_nil _ _) hwhole (List.cons_ne_nil _ _)
        (List.forall_mem_cons.2 ⟨hdigit, hdigits rest⟩)
    · exact .integer (List.cons_ne_nil _ _) hwhole
  · exact .integer (List.cons_ne_nil _ _) hwhole

theorem quote_not_mem_takeWhile (cs : List Char) : '"' ∉ cs.takeWhile (· != '"') := by
  intro hmem
  have := List.all_eq_true.1 List.all_takeWhile _ hmem
  simp at this

theorem spelled_cutString (cs : List Char) : (cutString cs).1.Spelled := by
  unfold cutString
  split
  · next quote rest hrest =>
    have hquote : quote = '"' := by
      have := List.head?_dropWhile_not (· != '"') cs
      rw [hrest] at this
      simpa using this
    subst hquote
    exact .string (quote_not_mem_takeWhile cs)
  · exact .openString (quote_not_mem_takeWhile cs)

theorem spelled_cutMark {c : Char} (cs : List Char) {kind : Kind} (hc : mark? c = some kind) :
    (cutMark c cs).1.Spelled := by
  unfold cutMark
  split
  · next next rest =>
    split
    · next hslashes =>
      simp only [Bool.and_eq_true, decide_eq_true_eq] at hslashes
      obtain ⟨rfl, rfl⟩ := hslashes
      rw [List.takeWhile_cons_of_pos (by decide)]
      refine .comment fun hmem => ?_
      have := List.all_eq_true.1 List.all_takeWhile _ hmem
      simp at this
    · split
      · next kind' hequal =>
        split at hequal
        · next hnext =>
          subst hnext
          exact .markWithEqual hequal
        · cases hequal
      · next kind' hmark => exact .mark hmark
      · next hnone => cases hc.symm.trans hnone
  · simp only [hc]
    exact .mark hc

/-- What is cut off is rejected if nothing begins with its first character, whatever follows it. -/
theorem cut_of_startsNothing {c : Char} (hc : StartsNothing c) (cs : List Char) :
    cut c cs = (rejected c, cs) := by
  obtain ⟨hseparator, hword, hdigit, hquote, hmark⟩ := hc
  have hequal : markWithEqual? c = none := by
    cases hequal : markWithEqual? c with
    | none => rfl
    | some kind =>
      obtain ⟨kind', hmark'⟩ := mark?_of_markWithEqual? hequal
      cases hmark'.symm.trans hmark
  have hslash : c ≠ '/' := by
    rintro rfl
    cases hmark
  cases cs with
  | nil => simp [cut, hseparator, hword, hdigit, hquote, cutMark, hmark]
  | cons next rest => simp [cut, hseparator, hword, hdigit, hquote, cutMark, hmark, hequal, hslash]

theorem spelled_cut_or_startsNothing (c : Char) (cs : List Char) :
    (cut c cs).1.Spelled ∨ StartsNothing c := by
  by_cases hseparator : isSeparator c = true
  · rw [cut_separator cs hseparator]
    refine .inl (.blank (List.cons_ne_nil _ _) (List.forall_mem_cons.2 ⟨hseparator, ?_⟩))
    exact fun _ hd => List.all_eq_true.1 List.all_takeWhile _ hd
  by_cases hword : startsWord c = true
  · rw [cut_word cs hword]
    exact .inl (spelled_cutWord cs hword)
  by_cases hdigit : c.isDigit = true
  · rw [cut_digit cs hdigit]
    exact .inl (spelled_cutNumber cs hdigit)
  by_cases hquote : c = '"'
  · subst hquote
    exact .inl (spelled_cutString cs)
  cases hmark : mark? c with
  | some kind =>
    rw [cut_mark cs hmark]
    exact .inl (spelled_cutMark cs hmark)
  | none =>
    exact .inr ⟨by simpa using hseparator, by simpa using hword, by simpa using hdigit, hquote,
      hmark⟩

/-! ## More text never makes a piece shorter -/

section More

variable (c : Char) (cs more : List Char)

theorem length_takeWhile_le (p : Char → Bool) :
    (cs.takeWhile p).length ≤ ((cs ++ more).takeWhile p).length := by
  rw [List.takeWhile_append]
  split
  · next hall =>
    rw [List.length_append]
    omega
  · exact Nat.le_refl _

/-- Where a run of characters ends does not depend on what comes later. -/
theorem while_append {p : Char → Bool} {x : Char} {rest : List Char}
    (hrest : cs.dropWhile p = x :: rest) :
    (cs ++ more).takeWhile p = cs.takeWhile p ∧
      (cs ++ more).dropWhile p = x :: (rest ++ more) := by
  have hlength := congrArg List.length (@List.takeWhile_append_dropWhile _ p cs)
  rw [hrest, List.length_append, List.length_cons] at hlength
  constructor
  · rw [List.takeWhile_append, if_neg (by omega)]
  · rw [List.dropWhile_append, hrest]
    rfl

theorem length_cutWord_le :
    (cutWord c cs).1.text.length ≤ (cutWord c (cs ++ more)).1.text.length := by
  simpa [cutWord] using length_takeWhile_le cs more continuesWord

/-- A number is at least its digits before the point. -/
theorem length_digits_le_cutNumber :
    (cs.takeWhile Char.isDigit).length + 1 ≤ (cutNumber c cs).1.text.length := by
  unfold cutNumber
  split
  · split
    · simp only [text_lexeme, List.cons_append, List.length_cons, List.length_append]
      omega
    · exact Nat.le_refl _
  · exact Nat.le_refl _

theorem length_cutNumber_le :
    (cutNumber c cs).1.text.length ≤ (cutNumber c (cs ++ more)).1.text.length := by
  have hdigits := Nat.le_trans (Nat.succ_le_succ (length_takeWhile_le cs more Char.isDigit))
    (length_digits_le_cutNumber c (cs ++ more))
  -- Only a fraction makes a number longer than its digits, and a fraction is not lost.
  rw [cutNumber]
  split
  · next digit rest hrest =>
    split
    · next hdigit =>
      obtain ⟨htake, hdrop⟩ := while_append cs more hrest
      have hfraction := length_takeWhile_le rest more Char.isDigit
      simp only [cutNumber, htake, hdrop, List.cons_append, hdigit, if_true, text_lexeme,
        List.length_cons, List.length_append]
      omega
    · exact hdigits
  · exact hdigits

theorem length_cutString_le :
    (cutString cs).1.text.length ≤ (cutString (cs ++ more)).1.text.length := by
  have hbody := length_takeWhile_le cs more (· != '"')
  rw [cutString]
  split
  · next quote rest hrest =>
    obtain ⟨htake, hdrop⟩ := while_append cs more hrest
    simp only [cutString, htake, hdrop, text_lexeme]
    exact Nat.le_refl _
  · rw [cutString]
    split
    · simp only [text_lexeme, text_openString, List.cons_append, List.length_cons,
        List.length_append]
      omega
    · simp only [text_openString, List.length_cons]
      omega

theorem length_cutMark_le :
    (cutMark c cs).1.text.length ≤ (cutMark c (cs ++ more)).1.text.length := by
  cases cs with
  | nil =>
    have hone : (cutMark c []).1.text.length = 1 := by
      rw [cutMark]
      split <;> rfl
    have hsome : (cutMark c more).1.text ≠ [] := by
      unfold cutMark
      split <;> split
      · exact List.cons_ne_nil _ _
      · split <;> exact List.cons_ne_nil _ _
      · exact List.cons_ne_nil _ _
      · exact List.cons_ne_nil _ _
    rw [hone, List.nil_append]
    exact List.length_pos_iff.2 hsome
  | cons next rest =>
    rw [List.cons_append, cutMark, cutMark]
    split
    · simpa using length_takeWhile_le (next :: rest) more (· != '\n')
    · split <;> exact Nat.le_refl _

theorem length_cut_le : (cut c cs).1.text.length ≤ (cut c (cs ++ more)).1.text.length := by
  unfold cut
  split
  · simpa using length_takeWhile_le cs more isSeparator
  · split
    · exact length_cutWord_le c cs more
    · split
      · exact length_cutNumber_le c cs more
      · split
        · exact length_cutString_le cs more
        · exact length_cutMark_le c cs more

end More

/-! ## The pieces of a text -/

theorem Spelled.text_ne_nil {piece : Piece} (hpiece : piece.Spelled) : piece.text ≠ [] := by
  cases hpiece with
  | blank hsome | integer hsome => exact hsome
  | reserved hword | identifier hword =>
    rintro rfl
    exact hword
  | fraction => simp
  | _ => exact List.cons_ne_nil _ _

/-- No piece that is spelled right and fits at the front of a text is longer than what is cut off. -/
theorem length_le_cut {piece : Piece} (hpiece : piece.Spelled) {c : Char} {cs : List Char}
    (hfits : piece.text <+: c :: cs) : piece.text.length ≤ (cut c cs).1.text.length := by
  obtain ⟨more, hmore⟩ := hfits
  obtain ⟨first, others, htext⟩ := List.exists_cons_of_ne_nil hpiece.text_ne_nil
  rw [htext, List.cons_append, List.cons.injEq] at hmore
  obtain ⟨rfl, rfl⟩ := hmore
  have hlength := length_cut_le first others more
  rwa [cut_of_spelled hpiece htext] at hlength

theorem Spelled.not_fits {piece : Piece} (hpiece : piece.Spelled) {c : Char} {cs : List Char}
    (hc : StartsNothing c) : ¬ piece.text <+: c :: cs := by
  rintro ⟨more, hmore⟩
  obtain ⟨first, others, htext⟩ := List.exists_cons_of_ne_nil hpiece.text_ne_nil
  rw [htext, List.cons_append, List.cons.injEq] at hmore
  obtain ⟨rfl, -⟩ := hmore
  have hcut := cut_of_spelled hpiece htext
  rw [cut_of_startsNothing hc] at hcut
  cases hcut
  cases hpiece

theorem Spelled.stands {piece : Piece} (hpiece : piece.Spelled) {after : List Char}
    (hlongest : ∀ other : Piece, other.Spelled → other.text <+: piece.text ++ after →
      other.text.length ≤ piece.text.length) : piece.Stands after := by
  cases piece with
  | rejected c => cases hpiece
  | _ => exact ⟨hpiece, hlongest⟩

theorem stands_cut (c : Char) (cs : List Char) : (cut c cs).1.Stands (cut c cs).2 := by
  rcases spelled_cut_or_startsNothing c cs with hspelled | hnothing
  · refine hspelled.stands ?_
    rw [text_cut]
    exact fun other hother => length_le_cut hother
  · rw [cut_of_startsNothing hnothing]
    intro other hother hfits
    exact hother.not_fits hnothing hfits

/-- A piece that is spelled right is cut off where nothing longer could be. -/
theorem cut_of_longest {piece : Piece} (hpiece : piece.Spelled) {after cs : List Char} {c : Char}
    (hlongest : ∀ other : Piece, other.Spelled → other.text <+: piece.text ++ after →
      other.text.length ≤ piece.text.length)
    (htext : piece.text ++ after = c :: cs) : cut c cs = (piece, after) := by
  rw [htext] at hlongest
  have hfits : piece.text <+: c :: cs := ⟨after, htext⟩
  have hcut : (cut c cs).1.Spelled := by
    rcases spelled_cut_or_startsNothing c cs with hspelled | hnothing
    · exact hspelled
    · exact absurd hfits (hpiece.not_fits hnothing)
  have hlength : (cut c cs).1.text.length = piece.text.length :=
    Nat.le_antisymm (hlongest _ hcut ⟨_, text_cut c cs⟩) (length_le_cut hpiece hfits)
  obtain ⟨hsame, hafter⟩ := List.append_inj ((text_cut c cs).trans htext.symm) hlength
  -- The two pieces have one text, and that text alone is cut as each of them.
  obtain ⟨first, others, hfirst⟩ := List.exists_cons_of_ne_nil hpiece.text_ne_nil
  have hpair := (cut_of_spelled hcut (hsame.trans hfirst)).symm.trans (cut_of_spelled hpiece hfirst)
  exact Prod.ext (Prod.mk.inj hpair).1 hafter

/-- Only one piece can stand at the front of a text. -/
theorem cut_of_stands {piece : Piece} {after : List Char} (hstands : piece.Stands after) {c : Char}
    {cs : List Char} (htext : piece.text ++ after = c :: cs) : cut c cs = (piece, after) := by
  cases piece with
  | rejected c' =>
    cases htext
    rcases spelled_cut_or_startsNothing c after with hspelled | hnothing
    · exact absurd ⟨_, text_cut c after⟩ (hstands _ hspelled)
    · exact cut_of_startsNothing hnothing after
  | _ => exact cut_of_longest hstands.1 hstands.2 htext

/-- Every piece of a list stands before the text of those after it. -/
def AllStand : List Piece → Prop
  | [] => True
  | piece :: rest => piece.Stands (rest.flatMap text) ∧ AllStand rest

theorem allStand_pieces (cs : List Char) : AllStand (pieces cs) := by
  fun_induction pieces cs with
  | case1 => trivial
  | case2 c rest ih =>
    refine ⟨?_, ih⟩
    rw [text_pieces]
    exact stands_cut c rest

theorem AllStand.stands {list : List Piece} (hlist : AllStand list) {piece : Piece}
    (hmem : piece ∈ list) : ∃ after, piece.Stands after := by
  induction list with
  | nil => cases hmem
  | cons first rest ih =>
    rcases List.mem_cons.1 hmem with rfl | hmem
    · exact ⟨_, hlist.1⟩
    · exact ih hlist.2 hmem

theorem Stands.text_ne_nil {piece : Piece} {after : List Char} (hstands : piece.Stands after) :
    piece.text ≠ [] := by
  cases piece with
  | rejected c => exact List.cons_ne_nil _ _
  | _ => exact hstands.1.text_ne_nil

/-- There is no other way to make a text of such pieces. -/
theorem eq_pieces {list : List Piece} (hlist : AllStand list) : list = pieces (list.flatMap text) := by
  induction list with
  | nil => rw [List.flatMap_nil, pieces]
  | cons piece rest ih =>
    obtain ⟨hstands, hrest⟩ := hlist
    obtain ⟨c, cs, htext⟩ := List.exists_cons_of_ne_nil hstands.text_ne_nil
    have hwhole : piece.text ++ rest.flatMap text = c :: (cs ++ rest.flatMap text) := by
      rw [htext, List.cons_append]
    rw [List.flatMap_cons, hwhole, pieces, cut_of_stands hstands hwhole, ← ih hrest]

end Lox.Piece
