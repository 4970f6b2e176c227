import Mathlib.Data.List.Forall2
import Lox.Proofs.Scan.Rendering

/-!
# Rejected characters are blanks

A character that starts nothing ends the piece before it, just as a space does, and the pass after
it begins where a pass after a space would go on. So a text scans as it does with a space in place of
each rejected character, but for the complaints about these characters, and then one pass is enough
(`rejected_acts_as_blank`).
-/

namespace Lox

open Piece

/-! ## What a scan reads -/

/-- What the passes over a text read after an offset, with a space in place of each character that
one of them rejects. -/
def blankedFrom (source : List Char) (offset : Nat) : List Char :=
  match _hrejection : (passFrom 0 1 (source.drop offset)).rejection with
  | none => source.drop offset
  | some rejection =>
    (source.drop offset).take rejection.position ++
      ' ' :: blankedFrom source (offset + rejection.position + 1)
termination_by source.length - offset
decreasing_by
  have hlt := position_lt_of_rejection _hrejection
  rw [List.length_drop] at hlt
  omega

/-- A source text with a space in place of each character that is rejected. -/
def blankedSource (source : String) : String :=
  String.ofList (blankedFrom source.toList 0)

/-- Whether a complaint is about a character that starts nothing. -/
def ScanComplaint.isCharacter : ScanComplaint → Bool
  | character _ => true
  | openString => false

namespace Piece

/-- The text of a piece, with a space in place of a rejected character. -/
def blanked : Piece → List Char
  | rejected _ => [' ']
  | piece => piece.text

/-- Picks nothing from rejected characters. -/
def unlessRejected {β : Type} (pick : Int → Piece → Option β) (line : Int) : Piece → Option β
  | rejected _ => none
  | piece => pick line piece

theorem blanked_eq_text {piece : Piece} (hpiece : ∀ c, piece ≠ rejected c) :
    piece.blanked = piece.text := by
  cases piece with
  | rejected c => exact absurd rfl (hpiece c)
  | _ => rfl

theorem unlessRejected_eq {β : Type} {piece : Piece} (hpiece : ∀ c, piece ≠ rejected c)
    (pick : Int → Piece → Option β) (line : Int) :
    unlessRejected pick line piece = pick line piece := by
  cases piece with
  | rejected c => exact absurd rfl (hpiece c)
  | _ => rfl

theorem flatMap_blanked {list : List Piece} (hlist : ∀ c, rejected c ∉ list) :
    list.flatMap blanked = list.flatMap text :=
  List.flatMap_congr fun _ hmem =>
    blanked_eq_text fun c heq => hlist c (heq ▸ hmem)

/-- What a pass cuts off are no rejected characters. -/
theorem rejected_not_mem_passFrom {position : Nat} {line : Int} {cs : List Char} (c : Char) :
    rejected c ∉ (passFrom position line cs).pieces.map Prod.snd := by
  fun_induction passFrom position line cs with
  | case1 => exact List.not_mem_nil
  | case2 => exact List.not_mem_nil
  | case3 position line first rest hpiece others ih =>
    rw [List.map_cons, List.mem_cons, not_or]
    exact ⟨fun heq => hpiece c heq.symm, ih⟩

theorem not_mem_of_pass {before : List Char} {list : List Piece} {rejection : Option Rejection}
    {position : Nat} {line : Int} {cs : List Char}
    (hpass : passFrom position line cs =
      ⟨(placed before list).map fun entry => (lineAfter entry.1, entry.2), rejection⟩) (c : Char) :
    rejected c ∉ list := by
  have hnone := @rejected_not_mem_passFrom position line cs c
  rw [hpass, List.map_map] at hnone
  change rejected c ∉ (placed before list).map Prod.snd at hnone
  rwa [placed_map_snd] at hnone

end Piece

/-- However often the scan starts again, what it reads is made of the pieces of the text. -/
theorem blankedFrom_eq (before cs : List Char) :
    blankedFrom (before ++ cs) before.length = (pieces cs).flatMap blanked := by
  rw [blankedFrom, List.drop_left]
  have hends : PassEnds 0 [] cs (passFrom 0 1 cs) := passFrom_ends 0 [] cs
  generalize hpass : passFrom 0 1 cs = pass at hends
  cases hends with
  | finished =>
    rw [flatMap_blanked fun c => not_mem_of_pass hpass c, text_pieces]
  | @stopped list c rest hnothing htext hpieces =>
    have hfront : cs.take (0 + (list.flatMap text).length) = list.flatMap text := by
      rw [Nat.zero_add, htext, List.take_left]
    -- The next pass begins behind `behind`.
    let behind := before ++ list.flatMap text ++ [c]
    have hoffset : before.length + (0 + (list.flatMap text).length) + 1 = behind.length := by
      simp only [behind, List.length_append, List.length_singleton]
      omega
    have hwhole : before ++ cs = behind ++ rest := by
      simp [behind, htext]
    have ih := blankedFrom_eq behind rest
    rw [← hwhole, ← hoffset] at ih
    dsimp only
    rw [ih, hfront, hpieces, List.flatMap_append, List.flatMap_cons,
      flatMap_blanked fun c => not_mem_of_pass hpass c]
    rfl
termination_by cs.length
decreasing_by
  simp only [htext, List.length_append, List.length_cons]
  omega

theorem toList_blankedSource (source : String) :
    (blankedSource source).toList = (pieces source.toList).flatMap blanked := by
  rw [blankedSource, String.toList_ofList]
  exact blankedFrom_eq [] source.toList

namespace Piece

/-! ## Pieces in front of a space -/

theorem Stands.spelled {piece : Piece} {after : List Char} (hstands : piece.Stands after)
    (hpiece : ∀ c, piece ≠ rejected c) : piece.Spelled := by
  cases piece with
  | rejected c => exact absurd rfl (hpiece c)
  | _ => exact hstands.1

theorem Stands.startsNothing {c : Char} {after : List Char} (hstands : (rejected c).Stands after) :
    StartsNothing c := by
  have hcut := cut_of_stands hstands rfl
  exact (cut_eq_rejected (congrArg Prod.fst hcut)).1

theorem StartsNothing.ne_newline {c : Char} (hc : StartsNothing c) : c ≠ '\n' := by
  rintro rfl
  exact absurd hc.1 (by decide)

/-- A comment only ends with its line. -/
theorem Stands.comment_newline {text after : List Char} {x : Char}
    (hstands : (comment text).Stands (x :: after)) : x = '\n' := by
  obtain ⟨hspelled, hlongest⟩ := hstands
  cases hspelled with
  | @comment body hbody =>
    by_contra hx
    have hlonger : (comment ('/' :: '/' :: (body ++ [x]))).Spelled :=
      .comment (by simp [hbody, Ne.symm hx])
    have hlength := hlongest _ hlonger ⟨after, by simp⟩
    simp only [text_comment, List.length_cons, List.length_append, List.length_nil] at hlength
    omega

/-- A string without an end is the last piece. -/
theorem not_stands_openString {text after : List Char} {x : Char} :
    ¬ (openString text).Stands (x :: after) := by
  rintro ⟨hspelled, hlongest⟩
  cases hspelled with
  | @openString body hbody =>
    by_cases hx : x = '"'
    · subst hx
      have hlength := hlongest _ (.string hbody) ⟨after, by simp⟩
      simp only [text_lexeme, text_openString, List.length_cons, List.length_append,
        List.length_nil] at hlength
      omega
    · have hlonger : (openString ('"' :: (body ++ [x]))).Spelled :=
        .openString (by simp [hbody, Ne.symm hx])
      have hlength := hlongest _ hlonger ⟨after, by simp⟩
      simp only [text_openString, List.length_cons, List.length_append, List.length_nil] at hlength
      omega

/-- A piece that stands in front of a text in which a character starts nothing stands there too if
a space takes the place of that character, whatever comes behind. Blanks are left out because a
space makes them longer. -/
theorem Stands.pieces_space {piece : Piece} {front after after' : List Char} {c : Char}
    (hstands : piece.Stands (front ++ c :: after)) (hc : StartsNothing c)
    (hspelled : piece.Spelled) (hblank : ∀ text, piece ≠ blank text) :
    pieces (piece.text ++ (front ++ ' ' :: after')) = piece :: pieces (front ++ ' ' :: after') := by
  cases piece with
  | blank text => exact absurd rfl (hblank text)
  | rejected d => cases hspelled
  | comment text =>
    cases front with
    | nil => exact absurd hstands.comment_newline hc.ne_newline
    | cons x front =>
      obtain rfl : x = '\n' := hstands.comment_newline
      cases hspelled with
      | comment hbody => exact pieces_comment hbody _
  | openString text =>
    cases front with
    | nil => exact absurd hstands not_stands_openString
    | cons x front => exact absurd hstands not_stands_openString
  | lexeme kind text =>
    have hshort := hstands.shorten (List.prefix_append front (c :: after))
    obtain ⟨d, ds, htext⟩ := List.exists_cons_of_ne_nil hspelled.text_ne_nil
    have hwhole : (lexeme kind text).text ++ front = d :: (ds ++ front) := by
      rw [htext, List.cons_append]
    have hcut := cut_of_stands hshort hwhole
    have hstops := cut_stopsAt (by decide : isSeparator ' ' = true) (congrArg Prod.fst hcut) after'
    rw [← List.append_assoc, hwhole, List.cons_append, pieces_cons, hstops, hcut]

/-- The text of some pieces is what is read of them up to the first character that is rejected. -/
theorem blanked_cases {list : List Piece} (hlist : AllStand list) :
    list.flatMap blanked = list.flatMap text ∨
      ∃ front c after after', StartsNothing c ∧ list.flatMap text = front ++ c :: after ∧
        list.flatMap blanked = front ++ ' ' :: after' := by
  induction list with
  | nil => exact .inl rfl
  | cons piece rest ih =>
    obtain ⟨hstands, hrest⟩ := hlist
    by_cases hrejected : ∃ c, piece = rejected c
    · obtain ⟨c, rfl⟩ := hrejected
      exact .inr ⟨[], c, _, _, hstands.startsNothing, rfl, rfl⟩
    · rw [List.flatMap_cons, List.flatMap_cons, blanked_eq_text (not_exists.1 hrejected)]
      rcases ih hrest with heq | ⟨front, c, after, after', hc, htext, hblanked⟩
      · exact .inl (by rw [heq])
      · refine .inr ⟨piece.text ++ front, c, after, after', hc, ?_, ?_⟩
        · rw [htext, List.append_assoc]
        · rw [hblanked, List.append_assoc]

theorem pieces_blanked {piece : Piece} {rest : List Piece}
    (hstands : piece.Stands (rest.flatMap text)) (hrest : AllStand rest)
    (hspelled : piece.Spelled) (hblank : ∀ text, piece ≠ blank text) :
    pieces (piece.text ++ rest.flatMap blanked) = piece :: pieces (rest.flatMap blanked) := by
  rcases blanked_cases hrest with heq | ⟨front, c, after, after', hc, htext, hblanked⟩
  · rw [heq]
    exact hstands.pieces_append
  · rw [htext] at hstands
    rw [hblanked]
    exact hstands.pieces_space hc hspelled hblank

/-! ## What is picked -/

section Gather

variable {β : Type} {pick : Int → Piece → Option β}

/-- Of what comes before some pieces only the newlines matter. -/
theorem gather_congr {before before' : List Char} (hcount : before.count '\n' = before'.count '\n')
    (list : List Piece) : gather pick before list = gather pick before' list := by
  rw [gather, gather, placed_eq_map before, placed_eq_map before', List.filterMap_map,
    List.filterMap_map]
  refine congrArg (List.filterMap · _) (funext fun entry => ?_)
  simp only [Function.comp_apply, lineAfter_append, hcount]

variable (hblank : ∀ line text, pick line (blank text) = none)
include hblank

theorem gather_separators (before : List Char) {text : List Char}
    (hall : ∀ c ∈ text, isSeparator c = true) (after : List Char) :
    gather pick before (pieces (text ++ after)) = gather pick (before ++ text) (pieces after) := by
  induction text generalizing before with
  | nil => rw [List.nil_append, List.append_nil]
  | cons c text ih =>
    obtain ⟨hc, htext⟩ := List.forall_mem_cons.1 hall
    rw [List.cons_append, gather_separator hblank before hc, ih _ htext, List.append_assoc]
    rfl

/-- From what is read of some pieces the same is picked as from the pieces, rejected characters
apart. -/
theorem gather_blanked {list : List Piece} (hlist : AllStand list) (before : List Char) :
    gather pick before (pieces (list.flatMap blanked)) =
      gather (unlessRejected pick) before list := by
  induction list generalizing before with
  | nil =>
    rw [List.flatMap_nil, pieces]
    rfl
  | cons piece rest ih =>
    obtain ⟨hstands, hrest⟩ := hlist
    rw [List.flatMap_cons, gather_cons]
    by_cases hrejected : ∃ c, piece = rejected c
    · obtain ⟨c, rfl⟩ := hrejected
      have hcount : (before ++ [' ']).count '\n' = (before ++ [c]).count '\n' := by
        rw [List.count_append, List.count_append, hstands.startsNothing.count_newline]
        rfl
      change gather pick before (pieces (' ' :: rest.flatMap blanked)) = _
      rw [gather_separator hblank before (by decide), gather_congr hcount, ih hrest]
      rfl
    · have hpiece := not_exists.1 hrejected
      rw [blanked_eq_text hpiece, unlessRejected_eq hpiece, ← ih hrest]
      by_cases hisBlank : ∃ text, piece = blank text
      · -- A blank may go on in the space behind it, but nothing is picked from either.
        obtain ⟨text, rfl⟩ := hisBlank
        cases hstands.1 with
        | blank _ hall =>
          rw [hblank]
          exact gather_separators hblank before hall _
      · have hspelled := hstands.spelled hpiece
        rw [pieces_blanked hstands hrest hspelled (not_exists.1 hisBlank), gather_cons]

end Gather

theorem unlessRejected_token? : unlessRejected token? = token? := by
  funext line piece
  cases piece <;> rfl

theorem gather_unlessRejected_error? (before : List Char) (list : List Piece) :
    gather (unlessRejected error?) before list =
      (gather error? before list).filter fun error => !error.complaint.isCharacter := by
  rw [gather, gather, List.filter_filterMap]
  refine congrArg (List.filterMap · _) (funext fun entry => ?_)
  cases entry.2 <;> rfl

theorem count_newline_blanked {list : List Piece} (hlist : AllStand list) :
    (list.flatMap blanked).count '\n' = (list.flatMap text).count '\n' := by
  induction list with
  | nil => rfl
  | cons piece rest ih =>
    obtain ⟨hstands, hrest⟩ := hlist
    rw [List.flatMap_cons, List.flatMap_cons, List.count_append, List.count_append, ih hrest]
    congr 1
    cases piece with
    | rejected c => exact (hstands.startsNothing.count_newline).symm
    | _ => rfl

/-- What is read of some pieces is their text, except that rejected characters have become spaces. -/
theorem forall₂_blanked {list : List Piece} (related : Char → Char → Prop)
    (hsame : ∀ c, related c c) (hspace : ∀ c, rejected c ∈ list → related c ' ') :
    List.Forall₂ related (list.flatMap text) (list.flatMap blanked) := by
  induction list with
  | nil => exact .nil
  | cons piece rest ih =>
    rw [List.flatMap_cons, List.flatMap_cons]
    refine List.rel_append ?_ (ih fun c hmem => hspace c (List.mem_cons_of_mem _ hmem))
    cases piece with
    | rejected c => exact .cons (hspace c List.mem_cons_self) .nil
    | _ => exact List.forall₂_same.2 fun c _ => hsame c

end Piece

/-- The errors of a text tell of every character of it that is rejected. -/
theorem exists_error_of_rejected {source : String} {c : Char}
    (hmem : rejected c ∈ pieces source.toList) :
    ∃ error ∈ (scan source).errors, error.complaint = .character c := by
  obtain ⟨line, hline⟩ := @exists_line_of_mem _ error? [] _ _ hmem
  refine ⟨⟨line, .character c⟩, ?_, rfl⟩
  rw [scan_errors]
  exact hline _ rfl

/-- A rejected character acts as a blank. Put a space in the place of each character of a source text
that is rejected: nothing else of the text is changed, and each of these characters was complained
about. The text is then scanned in one pass and gives the same tokens, on the same lines, and the same
errors but for the complaints about characters. -/
theorem rejected_acts_as_blank (source : String) :
    List.Forall₂
      (fun c d => d = c ∨ d = ' ' ∧ ∃ error ∈ (scan source).errors, error.complaint = .character c)
      source.toList (blankedSource source).toList ∧
    (passFrom 0 1 (blankedSource source).toList).rejection = none ∧
    (scan (blankedSource source)).tokens = (scan source).tokens ∧
    (scan (blankedSource source)).errors =
      (scan source).errors.filter fun error => !error.complaint.isCharacter := by
  have hstand := allStand_pieces source.toList
  have hblanked := toList_blankedSource source
  have herrors : (scan (blankedSource source)).errors =
      (scan source).errors.filter fun error => !error.complaint.isCharacter := by
    rw [scan_errors, scan_errors, hblanked, gather_blanked (fun _ _ => rfl) hstand,
      gather_unlessRejected_error?]
  have hchanged : List.Forall₂
      (fun c d => d = c ∨ d = ' ' ∧ ∃ error ∈ (scan source).errors, error.complaint = .character c)
      source.toList (blankedSource source).toList := by
    have hall := @forall₂_blanked (pieces source.toList) (fun c d =>
      d = c ∨ d = ' ' ∧ ∃ error ∈ (scan source).errors, error.complaint = .character c)
      (fun _ => .inl rfl) fun c hmem => .inr ⟨rfl, exists_error_of_rejected hmem⟩
    rwa [text_pieces, ← hblanked] at hall
  refine ⟨hchanged, ?_, ?_, herrors⟩
  · have hends : PassEnds 0 [] _ (passFrom 0 1 (blankedSource source).toList) :=
      passFrom_ends 0 [] _
    generalize passFrom 0 1 (blankedSource source).toList = pass at hends
    cases hends with
    | finished => rfl
    | @stopped list c rest _ _ hpieces =>
      -- a second rejection would be complained about, but no such complaint is left
      have hmem : rejected c ∈ pieces (blankedSource source).toList := by
        rw [hpieces]
        exact List.mem_append_right _ List.mem_cons_self
      obtain ⟨error, herror, hcomplaint⟩ := exists_error_of_rejected hmem
      rw [herrors] at herror
      have hother := (List.mem_filter.1 herror).2
      rw [hcomplaint] at hother
      cases hother
  · have hlast : lineAfter (blankedSource source).toList = lineAfter source.toList := by
      rw [lineAfter, lineAfter, hblanked, count_newline_blanked hstand, text_pieces]
    rw [scan_tokens, scan_tokens, sourceTokens, sourceTokens, hlast, hblanked,
      gather_blanked (fun _ _ => rfl) hstand, unlessRejected_token?]

/-- What a rejected character keeps apart is still apart behind a space. -/
example : blankedSource "1.@5 !#= /$/" = "1. 5 ! = / /" := by
  decide +kernel

end Lox
