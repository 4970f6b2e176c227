import Lox.Proofs.Scan.Front

/-!
# Scanning undoes writing

Lexemes that are written one after the other, with a gap between any two of them, are scanned back
as they are. A gap begins with a blank or the end of a line and goes on with any number of these and
of comments, so that it neither makes the lexeme before it longer nor leaves anything of its own
behind. The lines follow from the text in front of each lexeme, strings over several lines and
comments included.
-/

namespace Lox

open Piece

/-! ## Lexemes -/

/-- The text of a lexeme of each kind, and what it stands for. -/
inductive IsLexeme : Kind → List Char → Json → Prop where
  | fixed {kind : Kind} (hkind : kind ∈ Kind.marks ++ Kind.reserved) :
    IsLexeme kind kind.text.toList .null
  | identifier {word : List Char} (hword : IsWord word)
    (hfree : ∀ kind ∈ Kind.reserved, kind.text ≠ String.ofList word) :
    IsLexeme .identifier word .null
  | integer {digits : List Char} (hsome : digits ≠ []) (hall : ∀ d ∈ digits, d.isDigit = true) :
    IsLexeme .number digits (.float (Decimal.ofParts digits []).toFloat)
  | fraction {whole part : List Char} (hwhole : whole ≠ [])
    (hall : ∀ d ∈ whole, d.isDigit = true) (hpart : part ≠ [])
    (hall' : ∀ d ∈ part, d.isDigit = true) :
    IsLexeme .number (whole ++ '.' :: part) (.float (Decimal.ofParts whole part).toFloat)
  | string {body : List Char} (hbody : '"' ∉ body) :
    IsLexeme .string ('"' :: body ++ ['"']) (.str (String.ofList body))

structure Lexeme where
  kind : Kind
  text : List Char
  literal : Json
  valid : IsLexeme kind text literal

def Lexeme.token (l : Lexeme) (line : Int) : Token :=
  ⟨l.kind, .str (String.ofList l.text), l.literal, line⟩

namespace Piece

instance : DecidablePred IsWord
  | [] => inferInstanceAs (Decidable False)
  | _ :: _ => decidable_of_iff _ (and_congr_right' List.all_eq_true)

theorem spelled_of_marks {kind : Kind} (hkind : kind ∈ Kind.marks) :
    (lexeme kind kind.text.toList).Spelled := by
  have hall : ∀ kind ∈ Kind.marks,
      let c := kind.text.toList.headD ' '
      kind.text.toList = [c] ∧ mark? c = some kind ∨
        kind.text.toList = [c, '='] ∧ markWithEqual? c = some kind := by
    decide
  rcases hall kind hkind with ⟨htext, hmark⟩ | ⟨htext, hmark⟩
  · rw [htext]
    exact .mark hmark
  · rw [htext]
    exact .markWithEqual hmark

theorem spelled_of_reserved {kind : Kind} (hkind : kind ∈ Kind.reserved) :
    (lexeme kind kind.text.toList).Spelled := by
  have hall : ∀ kind ∈ Kind.reserved, IsWord kind.text.toList := by decide
  exact .reserved (hall kind hkind) hkind String.ofList_toList.symm

end Piece

section Valid

variable {kind : Kind} {text : List Char} {literal : Json}

theorem IsLexeme.spelled (h : IsLexeme kind text literal) : (lexeme kind text).Spelled := by
  cases h with
  | fixed hkind =>
    exact (List.mem_append.1 hkind).elim spelled_of_marks spelled_of_reserved
  | identifier hword hfree => exact .identifier hword hfree
  | integer hsome hall => exact .integer hsome hall
  | fraction hwhole hall hpart hall' => exact .fraction hwhole hall hpart hall'
  | string hbody => exact .string hbody

theorem IsLexeme.literalOf_eq (h : IsLexeme kind text literal) : literalOf kind text = literal := by
  cases h with
  | fixed hkind =>
    have hall : ∀ kind ∈ Kind.marks ++ Kind.reserved, kind ≠ .string ∧ kind ≠ .number := by decide
    exact literalOf_of_ne _ (hall kind hkind).1 (hall kind hkind).2
  | identifier => rfl
  | integer _ hall => exact literalOf_integer hall
  | fraction _ hall => exact literalOf_fraction hall _
  | string => exact literalOf_string _

theorem Lexeme.token?_eq (l : Lexeme) (line : Int) :
    (lexeme l.kind l.text).token? line = some (l.token line) := by
  rw [token?, l.valid.literalOf_eq]
  rfl

end Valid

/-! ## Gaps -/

/-- What a gap may go on with: a blank, or a comment with the end of its line. -/
inductive Filler where
  | blank (c : Char) (hc : isSeparator c = true)
  | comment (body : List Char) (hbody : '\n' ∉ body)

def Filler.text : Filler → List Char
  | blank c _ => [c]
  | comment body _ => '/' :: '/' :: (body ++ ['\n'])

/-- What is written between two lexemes. It begins with a blank. -/
structure Gap where
  first : Char
  separates : isSeparator first = true
  others : List Filler

def Gap.text (gap : Gap) : List Char :=
  gap.first :: gap.others.flatMap Filler.text

namespace Piece

section Cut

variable {kind : Kind} {text cs : List Char} {c x : Char}

theorem cutMark_stopsAt (hslash : x ≠ '/') (hequal : x ≠ '=')
    (hlexeme : (cutMark c cs).1 = lexeme kind text) : StopsAt x (cutMark c) cs := by
  intro after
  cases cs with
  | nil =>
    simp only [cutMark, List.nil_append]
    cases mark? c <;> simp [hslash, hequal]
  | cons next rest =>
    simp only [cutMark] at hlexeme
    simp only [List.cons_append, cutMark]
    split at hlexeme
    · cases hlexeme
    · next hcomment =>
      rw [if_neg hcomment, if_neg hcomment]
      split <;> rfl

/-- Cutting a lexeme does not see past a blank. -/
theorem cut_stopsAt (hx : isSeparator x = true) (hlexeme : (cut c cs).1 = lexeme kind text) :
    StopsAt x (cut c) cs := by
  have hapart : continuesWord x = false ∧ x.isDigit = false ∧ x ≠ '.' ∧ x ≠ '/' ∧ x ≠ '=' := by
    rcases isSeparator_eq_true.1 hx with rfl | rfl | rfl | rfl <;> decide
  obtain ⟨hcontinues, hdigits, hpoint, hslash, hequal⟩ := hapart
  intro after
  by_cases hc : isSeparator c = true
  · rw [cut_separator cs hc] at hlexeme
    cases hlexeme
  by_cases hword : startsWord c = true
  · rw [cut_word _ hword, cut_word _ hword]
    exact cutWord_stopsAt hcontinues c cs after
  by_cases hdigit : c.isDigit = true
  · rw [cut_digit _ hdigit, cut_digit _ hdigit]
    exact cutNumber_stopsAt hdigits hpoint c cs after
  by_cases hquote : c = '"'
  · subst hquote
    refine cutString_stopsAt x (fun own hopen => ?_) after
    cases hlexeme.symm.trans hopen
  · have hmark (cs : List Char) : cut c cs = cutMark c cs := by
      rw [cut, if_neg hc, if_neg hword, if_neg hdigit, if_neg hquote]
    rw [hmark] at hlexeme
    rw [hmark, hmark]
    exact cutMark_stopsAt hslash hequal hlexeme after

end Cut

/-- A lexeme in front of a blank is a piece of its own. -/
theorem Spelled.pieces_separator {kind : Kind} {text : List Char}
    (hspelled : (lexeme kind text).Spelled) {x : Char} (hx : isSeparator x = true)
    (after : List Char) :
    pieces (text ++ x :: after) = lexeme kind text :: pieces (x :: after) := by
  obtain ⟨c, cs, rfl⟩ := List.exists_cons_of_ne_nil hspelled.text_ne_nil
  have halone := cut_of_spelled hspelled rfl
  have hstops := cut_stopsAt hx (congrArg Prod.fst halone) after
  rw [List.cons_append, pieces_cons, hstops, halone]
  rfl

/-- A comment in front of the end of its line is a piece of its own. -/
theorem pieces_comment {body : List Char} (hbody : '\n' ∉ body) (after : List Char) :
    pieces ('/' :: '/' :: (body ++ '\n' :: after)) =
      comment ('/' :: '/' :: body) :: pieces ('\n' :: after) := by
  have halone := cut_of_spelled (.comment hbody) rfl
  have hclosed : ∀ text, (cut '/' ('/' :: body)).1 ≠ openString text := by
    rw [halone]
    exact nofun
  have hstops := cut_stops (by decide) hclosed after
  rw [List.cons_append] at hstops
  rw [pieces_cons, hstops, halone]
  rfl

section Gather

variable {β : Type} {pick : Int → Piece → Option β}
  (hblank : ∀ line text, pick line (blank text) = none)
  (hcomment : ∀ line text, pick line (comment text) = none)

include hblank hcomment

theorem gather_filler (filler : Filler) (before after : List Char) :
    gather pick before (pieces (filler.text ++ after)) =
      gather pick (before ++ filler.text) (pieces after) := by
  cases filler with
  | blank c hc => exact gather_separator hblank before hc after
  | comment body hbody =>
    have htext : (Filler.comment body hbody).text ++ after =
        '/' :: '/' :: (body ++ '\n' :: after) := by
      simp [Filler.text]
    rw [htext, pieces_comment hbody, gather_cons, hcomment,
      gather_separator hblank _ (by decide)]
    simp [Filler.text]

/-- Nothing is picked from a gap. -/
theorem gather_gap (gap : Gap) (before after : List Char) :
    gather pick before (pieces (gap.text ++ after)) =
      gather pick (before ++ gap.text) (pieces after) := by
  have hothers (fillers : List Filler) : ∀ before,
      gather pick before (pieces (fillers.flatMap Filler.text ++ after)) =
        gather pick (before ++ fillers.flatMap Filler.text) (pieces after) := by
    induction fillers with
    | nil => simp
    | cons filler fillers ih =>
      intro before
      rw [List.flatMap_cons, List.append_assoc, gather_filler hblank hcomment, ih,
        List.append_assoc]
  rw [Gap.text, List.cons_append, gather_separator hblank before gap.separates, hothers,
    List.append_assoc]
  rfl

end Gather

end Piece

/-! ## Layouts -/

/-- How some lexemes are written: the first one, and each of the others behind a gap. -/
inductive Layout where
  | empty
  | lexemes (first : Lexeme) (others : List (Gap × Lexeme))

namespace Layout

/-- The text of a lexeme and of the others behind it. -/
def textFrom (first : Lexeme) : List (Gap × Lexeme) → List Char
  | [] => first.text
  | (gap, next) :: others => first.text ++ (gap.text ++ textFrom next others)

/-- A lexeme and the others behind it, each with the text before it, given the text before the
first. -/
def placedFrom (before : List Char) (first : Lexeme) :
    List (Gap × Lexeme) → List (List Char × Lexeme)
  | [] => [(before, first)]
  | (gap, next) :: others =>
    (before, first) :: placedFrom (before ++ first.text ++ gap.text) next others

def text : Layout → List Char
  | empty => []
  | lexemes first others => textFrom first others

/-- The lexemes that are written, each with the text before it. -/
def placed : Layout → List (List Char × Lexeme)
  | empty => []
  | lexemes first others => placedFrom [] first others

/-- What is picked from a text is picked from the lexemes that are written there. -/
theorem gather_textFrom {β : Type} (pick : Int → Piece → Option β)
    (hblank : ∀ line text, pick line (blank text) = none)
    (hcomment : ∀ line text, pick line (comment text) = none) (before : List Char)
    (first : Lexeme) (others : List (Gap × Lexeme)) :
    gather pick before (pieces (textFrom first others)) =
      (placedFrom before first others).filterMap fun entry =>
        pick (lineAfter entry.1) (lexeme entry.2.kind entry.2.text) := by
  induction others generalizing before first with
  | nil =>
    rw [textFrom, ← text_lexeme first.kind first.text, first.valid.spelled.pieces_text]
    rfl
  | cons entry others ih =>
    obtain ⟨gap, next⟩ := entry
    -- The first character of the gap is enough to end the lexeme, whatever the gap goes on with.
    have hgap : first.text ++ (gap.text ++ textFrom next others) =
        first.text ++ gap.first ::
          (gap.others.flatMap Filler.text ++ textFrom next others) := rfl
    have hback : gap.first :: (gap.others.flatMap Filler.text ++ textFrom next others) =
        gap.text ++ textFrom next others := rfl
    rw [textFrom, hgap, first.valid.spelled.pieces_separator gap.separates, hback, gather_cons,
      gather_gap hblank hcomment, text_lexeme, ih, placedFrom, List.filterMap_cons]
    cases pick (lineAfter before) (lexeme first.kind first.text) <;> rfl

end Layout

/-- Lexemes that are written with gaps between them are scanned back without errors: a token for
each of them, on the line on which it was written, and the end behind them. -/
theorem scan_undoes_writing (layout : Layout) :
    scan (String.ofList layout.text) =
      ⟨(layout.placed.map fun entry => entry.2.token (1 + entry.1.count '\n')) ++
        [Token.endAt (1 + layout.text.count '\n')], []⟩ := by
  rw [scan_eq, String.toList_ofList]
  cases layout with
  | empty =>
    rw [Layout.text, pieces]
    rfl
  | lexemes first others =>
    have htokens : gather token? [] (pieces (Layout.textFrom first others)) =
        (Layout.placedFrom [] first others).map fun entry =>
          entry.2.token (lineAfter entry.1) := by
      rw [Layout.gather_textFrom token? (fun _ _ => rfl) (fun _ _ => rfl)]
      simp only [Lexeme.token?_eq, List.filterMap_eq_map']
    have herrors : gather error? [] (pieces (Layout.textFrom first others)) = [] := by
      rw [Layout.gather_textFrom error? (fun _ _ => rfl) (fun _ _ => rfl)]
      exact List.filterMap_eq_nil_iff.2 fun _ _ => rfl
    rw [Layout.text, htokens, herrors]
    rfl

end Lox
