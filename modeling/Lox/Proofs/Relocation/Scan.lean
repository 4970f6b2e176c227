import Lox.Proofs.Relocation.Basic
import Lox.Proofs.Scan.Restarts

/-!
# Scanning across a newline

A newline ends whatever piece of text it comes after, a string without an end apart, and blanks give
no tokens. So two texts with a newline between them have the tokens and errors of the first, and
behind them those of the second on later lines.
-/

namespace Lox

namespace Piece

/-! ## Pieces in front of a newline -/

section Stop

variable {α : Type} {p : α → Bool} {x : α}

theorem takeWhile_append_stop (hx : p x = false) (xs ys : List α) :
    (xs ++ x :: ys).takeWhile p = xs.takeWhile p := by
  induction xs with
  | nil => simp [hx]
  | cons y xs ih => simp only [List.cons_append, List.takeWhile_cons, ih]

theorem dropWhile_append_stop (hx : p x = false) (xs ys : List α) :
    (xs ++ x :: ys).dropWhile p = xs.dropWhile p ++ x :: ys := by
  induction xs with
  | nil => simp [hx]
  | cons y xs ih =>
    simp only [List.cons_append, List.dropWhile_cons, ih]
    split <;> rfl

end Stop

/-- A piece that does not see past a character. -/
def StopsAt (x : Char) (cut : List Char → Piece × List Char) (cs : List Char) : Prop :=
  ∀ after, cut (cs ++ x :: after) = ((cut cs).1, (cut cs).2 ++ x :: after)

section Cut

variable {c : Char} {cs : List Char}

theorem cutWord_stopsAt {x : Char} (hx : continuesWord x = false) (c : Char) (cs : List Char) :
    StopsAt x (cutWord c) cs := by
  intro after
  simp only [cutWord, takeWhile_append_stop hx, dropWhile_append_stop hx]

theorem cutNumber_stopsAt {x : Char} (hx : x.isDigit = false) (hpoint : x ≠ '.') (c : Char)
    (cs : List Char) : StopsAt x (cutNumber c) cs := by
  intro after
  simp only [cutNumber, takeWhile_append_stop hx, dropWhile_append_stop hx]
  cases hrest : cs.dropWhile Char.isDigit with
  | nil => simp [hpoint]
  | cons point rest =>
    by_cases hpoint : point = '.'
    · subst hpoint
      cases rest with
      | nil => simp [hx]
      | cons digit rest =>
        simp only [List.cons_append, takeWhile_append_stop hx, dropWhile_append_stop hx]
        split <;> rfl
    · simp [hpoint]

theorem cutString_stopsAt (x : Char) (hclosed : ∀ text, (cutString cs).1 ≠ openString text) :
    StopsAt x cutString cs := by
  intro after
  cases hrest : cs.dropWhile (· != '"') with
  | nil => exact absurd (by simp [cutString, hrest]) (hclosed ('"' :: cs.takeWhile (· != '"')))
  | cons quote rest =>
    obtain ⟨htake, hdrop⟩ := while_append cs (x :: after) hrest
    simp [cutString, htake, hdrop, hrest]

theorem cutMark_stops (c : Char) (cs : List Char) : StopsAt '\n' (cutMark c) cs := by
  intro after
  cases cs with
  | nil =>
    simp only [cutMark, List.nil_append]
    cases mark? c <;> simp
  | cons next rest =>
    have hnewline : ('\n' != '\n') = false := by decide
    simp only [List.cons_append, cutMark]
    split
    · have htake := takeWhile_append_stop (p := (· != '\n')) hnewline (next :: rest) after
      have hdrop := dropWhile_append_stop (p := (· != '\n')) hnewline (next :: rest) after
      rw [← List.cons_append, htake, hdrop]
    · split <;> rfl

/-- Cutting a piece that is no blank does not see past a newline. -/
theorem cut_stops (hc : isSeparator c = false) (hclosed : ∀ text, (cut c cs).1 ≠ openString text) :
    StopsAt '\n' (cut c) cs := by
  intro after
  by_cases hword : startsWord c = true
  · rw [cut_word _ hword, cut_word _ hword]
    exact cutWord_stopsAt (by decide) c cs after
  by_cases hdigit : c.isDigit = true
  · rw [cut_digit _ hdigit, cut_digit _ hdigit]
    exact cutNumber_stopsAt (by decide) (by decide) c cs after
  by_cases hquote : c = '"'
  · subst hquote
    exact cutString_stopsAt _ hclosed after
  · have hmark (cs : List Char) : cut c cs = cutMark c cs := by
      rw [cut, if_neg (by simp [hc]), if_neg hword, if_neg hdigit, if_neg hquote]
    rw [hmark, hmark]
    exact cutMark_stops c cs after

end Cut

/-! ## What is picked across a newline -/

theorem pieces_cons (c : Char) (cs : List Char) :
    pieces (c :: cs) = (cut c cs).1 :: pieces (cut c cs).2 := by
  rw [pieces]

theorem pieces_separator {c : Char} (hc : isSeparator c = true) (cs : List Char) :
    pieces (c :: cs) =
      blank (c :: cs.takeWhile isSeparator) :: pieces (cs.dropWhile isSeparator) := by
  rw [pieces_cons, cut_separator _ hc]

/-- Blanks at the front of a text are one piece, or none if there are none. -/
theorem pieces_eq_blank_or (cs : List Char) :
    (∃ text, text = cs.takeWhile isSeparator ∧
        pieces cs = blank text :: pieces (cs.dropWhile isSeparator)) ∨
      (cs.takeWhile isSeparator = [] ∧ cs.dropWhile isSeparator = cs) := by
  cases cs with
  | nil => exact .inr ⟨rfl, rfl⟩
  | cons c rest =>
    cases hc : isSeparator c with
    | true =>
      refine .inl ⟨_, rfl, ?_⟩
      rw [pieces_separator hc]
      simp [hc]
    | false => exact .inr ⟨by simp [hc], by simp [hc]⟩

theorem openString_mem_separator {c : Char} (hc : isSeparator c = true) {cs text : List Char}
    (hmem : openString text ∈ pieces cs) : openString text ∈ pieces (c :: cs) := by
  rw [pieces_separator hc]
  rcases pieces_eq_blank_or cs with ⟨_, -, hpieces⟩ | ⟨-, hdrop⟩
  · rw [hpieces] at hmem
    simpa using hmem
  · rw [hdrop]
    exact List.mem_cons_of_mem _ hmem

section Gather

variable {β : Type} {pick : Int → Piece → Option β}

theorem gather_cons (before : List Char) (piece : Piece) (list : List Piece) :
    gather pick before (piece :: list) =
      (pick (lineAfter before) piece).toList ++ gather pick (before ++ piece.text) list := by
  simp only [gather, placed, List.filterMap_cons]
  cases pick (lineAfter before) piece <;> rfl

/-- What is picked from a piece of a text, on some line, is picked from the text. -/
theorem exists_line_of_mem (before : List Char) {list : List Piece} {piece : Piece}
    (hmem : piece ∈ list) :
    ∃ line, ∀ b, pick line piece = some b → b ∈ gather pick before list := by
  induction list generalizing before with
  | nil => cases hmem
  | cons first rest ih =>
    rw [gather_cons]
    rcases List.mem_cons.1 hmem with rfl | hmem
    · exact ⟨_, fun b hpick => List.mem_append_left _ (Option.mem_toList.2 hpick)⟩
    · obtain ⟨line, hline⟩ := ih (before ++ first.text) hmem
      exact ⟨line, fun b hpick => List.mem_append_right _ (hline b hpick)⟩

theorem pick_eq_none_of_gather {before : List Char} {list : List Piece}
    (hnone : gather pick before list = []) {piece : Piece} (hmem : piece ∈ list) :
    ∃ line, pick line piece = none := by
  obtain ⟨line, hline⟩ := exists_line_of_mem before hmem
  refine ⟨line, Option.eq_none_iff_forall_ne_some.2 fun b hpick => ?_⟩
  have hpicked := hline b hpick
  rw [hnone] at hpicked
  cases hpicked

/-- A blank in front of a text adds nothing, if nothing is picked from blanks. -/
theorem gather_separator (hblank : ∀ line text, pick line (blank text) = none)
    (before : List Char) {c : Char} (hc : isSeparator c = true) (cs : List Char) :
    gather pick before (pieces (c :: cs)) = gather pick (before ++ [c]) (pieces cs) := by
  rw [pieces_separator hc, gather_cons, hblank]
  rcases pieces_eq_blank_or cs with ⟨_, rfl, hpieces⟩ | ⟨htake, hdrop⟩
  · rw [hpieces, gather_cons, hblank]
    simp [text]
  · rw [htake, hdrop]
    rfl

/-- What is picked from two texts with a newline between them is picked from each of them. -/
theorem gather_newline (pick : Int → Piece → Option β) (hblank : ∀ line text, pick line (blank text) = none)
    (before : List Char) {cs : List Char} (hclosed : ∀ text, openString text ∉ pieces cs)
    (after : List Char) :
    gather pick before (pieces (cs ++ '\n' :: after)) =
      gather pick before (pieces cs) ++ gather pick (before ++ (cs ++ ['\n'])) (pieces after) := by
  induction hlength : cs.length using Nat.strongRecOn generalizing before cs with
  | ind length ih =>
  subst hlength
  cases cs with
  | nil =>
    rw [List.nil_append, gather_separator hblank before (by decide)]
    simp [pieces, gather, placed]
  | cons c rest =>
    by_cases hc : isSeparator c = true
    · have hrest : ∀ text, openString text ∉ pieces rest := fun text hmem =>
        hclosed text (openString_mem_separator hc hmem)
      rw [List.cons_append, gather_separator hblank before hc, gather_separator hblank before hc,
        ih rest.length (by simp) _ hrest rfl]
      simp
    · have hc : isSeparator c = false := Bool.eq_false_iff.2 hc
      rw [pieces_cons] at hclosed
      have hcut := cut_stops hc (fun text htext => hclosed text (htext ▸ List.mem_cons_self)) after
      have hrest : ∀ text, openString text ∉ pieces (cut c rest).2 := fun text hmem =>
        hclosed text (List.mem_cons_of_mem _ hmem)
      have hlt := length_cut c rest
      have htext := text_cut c rest
      rw [List.cons_append, pieces_cons, pieces_cons, hcut, gather_cons, gather_cons,
        ih (cut c rest).2.length hlt _ hrest rfl, List.append_assoc, List.append_assoc,
        ← List.append_assoc (cut c rest).1.text, htext]

end Gather

end Piece

open Piece

/-! ## The tokens and errors of a joined text -/

theorem Piece.token?_moved (before line : Int) (piece : Piece) :
    piece.token? (before + line) = (piece.token? line).map (Token.moved before) := by
  cases piece with
  | lexeme kind text => simp [token?, Token.moved, Int.add_comm]
  | _ => rfl

theorem Piece.error?_moved (before line : Int) (piece : Piece) :
    piece.error? (before + line) = (piece.error? line).map (ScanError.moved before) := by
  cases piece with
  | openString text => simp [error?, ScanError.moved, Int.add_comm]
  | rejected c => simp [error?, ScanError.moved, Int.add_comm]
  | _ => rfl

/-- What is picked behind some text is what is picked from the text alone, on later lines. -/
theorem Piece.gather_moved {β : Type} {pick : Int → Piece → Option β} {move : Int → β → β}
    (hpick : ∀ before line piece, pick (before + line) piece = (pick line piece).map (move before))
    (before : List Char) (list : List Piece) :
    gather pick before list = (gather pick [] list).map (move (before.count '\n')) := by
  rw [gather, gather, placed_eq_map before, List.filterMap_map, List.map_filterMap]
  refine congrArg (List.filterMap · _) (funext fun entry => ?_)
  simp only [Function.comp_apply, lineAfter_append, hpick]

/-- The tokens of a source text before the one that ends it. -/
def sourceTokens (source : String) : List Token :=
  gather token? [] (pieces source.toList)

theorem scan_tokens (source : String) :
    (scan source).tokens = sourceTokens source ++ [Token.endAt (lineAfter source.toList)] := by
  rw [scan_eq]
  rfl

theorem scan_errors (source : String) :
    (scan source).errors = gather error? [] (pieces source.toList) := by
  rw [scan_eq]

theorem Piece.placed_map_snd (before : List Char) (list : List Piece) :
    (placed before list).map Prod.snd = list := by
  induction list generalizing before with
  | nil => rfl
  | cons piece rest ih => rw [placed, List.map_cons, ih]

theorem Piece.Spelled.kind_ne_eof {kind : Kind} {text : List Char}
    (hspelled : (lexeme kind text).Spelled) : kind ≠ .eof := by
  cases hspelled with
  | reserved _ hkind _ =>
    have hall : ∀ kind ∈ Kind.reserved, kind ≠ .eof := by decide
    exact hall kind hkind
  | identifier | integer | fraction | string => exact nofun
  | mark hmark =>
    unfold mark? at hmark
    split at hmark
    case h_16 => cases hmark
    all_goals
      cases hmark
      exact nofun
  | markWithEqual hmark =>
    unfold markWithEqual? at hmark
    split at hmark
    case h_5 => cases hmark
    all_goals
      cases hmark
      exact nofun

/-- A token of a source text is one of its lexemes. -/
theorem exists_lexeme_of_mem_sourceTokens {source : String} {t : Token}
    (hmem : t ∈ sourceTokens source) :
    ∃ text, t.lexeme = .str (String.ofList text) ∧ (lexeme t.kind text).Spelled := by
  obtain ⟨⟨before, piece⟩, hplaced, htoken⟩ := List.mem_filterMap.1 hmem
  cases piece with
  | lexeme kind text =>
    cases htoken
    have hpiece : lexeme kind text ∈ pieces source.toList := by
      rw [← placed_map_snd [] (pieces source.toList)]
      exact List.mem_map_of_mem hplaced
    obtain ⟨after, hstands⟩ := (allStand_pieces source.toList).stands hpiece
    exact ⟨text, rfl, hstands.1⟩
  | _ => cases htoken

theorem kind_ne_eof_of_mem_sourceTokens {source : String} {t : Token}
    (hmem : t ∈ sourceTokens source) : t.kind ≠ .eof := by
  obtain ⟨text, -, hspelled⟩ := exists_lexeme_of_mem_sourceTokens hmem
  exact hspelled.kind_ne_eof

/-- The tokens of a source text before the end that the parser looks for. -/
theorem takeWhile_scan_tokens (source : String) :
    (scan source).tokens.takeWhile (·.kind != .eof) = sourceTokens source := by
  have hall : ∀ t ∈ sourceTokens source, (t.kind != .eof) = true := by
    intro t hmem
    simpa using kind_ne_eof_of_mem_sourceTokens hmem
  rw [scan_tokens, List.takeWhile_append_of_pos hall]
  exact List.append_nil _

/-- How many lines further down a text stands if another one and a newline are put in front. -/
def linesAbove (source : String) : Int :=
  source.toList.count '\n' + 1

/-- A text has no string without an end if none is reported. -/
theorem closed_of_complaints {source : String}
    (hclosed : ∀ error ∈ (scan source).errors, error.complaint ≠ .openString) :
    ∀ text, openString text ∉ pieces source.toList := by
  intro text hmem
  rw [scan_errors] at hclosed
  obtain ⟨line, hline⟩ := @exists_line_of_mem _ error? [] _ _ hmem
  exact hclosed _ (hline ⟨line, .openString⟩ rfl) rfl

theorem closed_of_errors {source : String} (herrors : (scan source).errors = []) :
    ∀ text, openString text ∉ pieces source.toList := by
  apply closed_of_complaints
  rw [herrors]
  exact List.forall_mem_nil _

/-- A text without an open string, a newline and another text: the tokens of both, without the end
of the first, and the errors of both. -/
theorem scan_append_newline {first : String}
    (hclosed : ∀ text, openString text ∉ pieces first.toList) (second : String) :
    scan (first ++ "\n" ++ second) =
      ⟨sourceTokens first ++ (scan second).tokens.map (Token.moved (linesAbove first)),
        (scan first).errors ++ (scan second).errors.map (ScanError.moved (linesAbove first))⟩ := by
  have hlist : (first ++ "\n" ++ second).toList = first.toList ++ '\n' :: second.toList := by
    simp
  have hcount : ((first.toList ++ ['\n']).count '\n' : Int) = linesAbove first := by
    simp [linesAbove]
  have htokens := gather_newline token? (fun _ _ => rfl) [] hclosed second.toList
  have herrors := gather_newline error? (fun _ _ => rfl) [] hclosed second.toList
  have hlast : Token.endAt (lineAfter (first.toList ++ '\n' :: second.toList)) =
      (Token.endAt (lineAfter second.toList)).moved (linesAbove first) := by
    simp only [Token.endAt, Token.moved, lineAfter, linesAbove, List.count_append,
      List.count_cons_self]
    congr 1
    omega
  rw [List.nil_append, gather_moved Piece.token?_moved (first.toList ++ ['\n']), hcount] at htokens
  rw [List.nil_append, gather_moved Piece.error?_moved (first.toList ++ ['\n']), hcount] at herrors
  rw [scan_errors first, scan_eq, scan_eq second, hlist, htokens, herrors, hlast]
  simp [sourceTokens]

/-- A text without errors, a newline and another text: the tokens of both, without the end of the
first, and the errors of the second. -/
theorem scan_join {first : String} (herrors : (scan first).errors = []) (second : String) :
    scan (first ++ "\n" ++ second) =
      ⟨sourceTokens first ++ (scan second).tokens.map (Token.moved (linesAbove first)),
        (scan second).errors.map (ScanError.moved (linesAbove first))⟩ := by
  rw [scan_append_newline (closed_of_errors herrors), herrors, List.nil_append]

/-- Scanning composes over a newline, whatever is wrong with either text, if the first of them leaves
no string open. The tokens of the joined text are those of the first text without its end and behind
them those of the second one, and the errors are those of both, with all that is of the second text
as many lines further down as the first text and the newline take. -/
theorem scan_composes (first second : String)
    (hclosed : ∀ error ∈ (scan first).errors, error.complaint ≠ .openString) :
    ∃ tokens : List Token,
      (∀ t ∈ tokens, t.kind ≠ .eof) ∧
      (scan first).tokens = tokens ++ [Token.endAt (1 + first.toList.count '\n')] ∧
      (scan (first ++ "\n" ++ second)).tokens =
        tokens ++ (scan second).tokens.map (Token.moved (first.toList.count '\n' + 1)) ∧
      (scan (first ++ "\n" ++ second)).errors =
        (scan first).errors ++
          (scan second).errors.map (ScanError.moved (first.toList.count '\n' + 1)) := by
  have hjoined := scan_append_newline (closed_of_complaints hclosed) second
  refine ⟨sourceTokens first, fun _ => kind_ne_eof_of_mem_sourceTokens, scan_tokens first, ?_, ?_⟩
  · rw [hjoined, linesAbove]
  · rw [hjoined, linesAbove]

/-- Two lines that end in the middle of things: with an operator that is cut short, behind a
character that starts nothing. -/
def cutShort : String := "x = 1.5;\nprint 2.#/"

/-- A line that would go on with them, and one with an open string. -/
def goingOn : String := "/ 3 @ =\n\"open"

theorem scan_composes_cutShort :
    (∀ error ∈ (scan cutShort).errors, error.complaint ≠ .openString) ∧
    (scan cutShort).errors = [⟨2, .character '#'⟩] ∧
    (scan (cutShort ++ "\n" ++ goingOn)).errors =
      [⟨2, .character '#'⟩, ⟨3, .character '@'⟩, ⟨4, .openString⟩] ∧
    (scan (cutShort ++ "\n" ++ goingOn)).tokens.map Token.line =
      [1, 1, 1, 1, 2, 2, 2, 2, 3, 3, 3, 4] := by
  have hfirst : (scan cutShort).errors = [⟨2, .character '#'⟩] := by decide +kernel
  have hsecond : (scan goingOn).errors = [⟨1, .character '@'⟩, ⟨2, .openString⟩] := by
    decide +kernel
  have hclosed : ∀ error ∈ (scan cutShort).errors, error.complaint ≠ .openString := by
    rw [hfirst]
    decide
  obtain ⟨tokens, -, hown, htokens, herrors⟩ := scan_composes cutShort goingOn hclosed
  refine ⟨hclosed, hfirst, ?_, ?_⟩
  · rw [herrors, hfirst, hsecond]
    decide +kernel
  · have hlines : tokens.map Token.line = [1, 1, 1, 1, 2, 2, 2, 2] := by
      have hall := congrArg (fun all => (all.map Token.line).dropLast) hown
      simp only [List.map_append, List.map_cons, List.map_nil, List.dropLast_concat] at hall
      rw [← hall]
      decide +kernel
    rw [htokens, List.map_append, hlines]
    decide +kernel

end Lox
