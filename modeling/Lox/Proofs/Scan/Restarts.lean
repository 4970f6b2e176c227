import Lox.Token.Scan
import Lox.Proofs.Scan.Longest

/-!
# Passes and restarts

A scan makes one pass after another, each over what the last one left behind a rejected character.
However often it starts again, the result is that of going through the pieces of the whole text once
and giving each of them the line it starts on (`scanFrom_eq`).
-/

namespace Lox

namespace Piece

/-- Pieces with the text before each of them, given the text before the first. -/
def placed (before : List Char) : List Piece → List (List Char × Piece)
  | [] => []
  | piece :: rest => (before, piece) :: placed (before ++ piece.text) rest

/-- The line on which what follows a text starts. -/
def lineAfter (before : List Char) : Int :=
  1 + before.count '\n'

/-- What is picked from pieces that follow some text, given the line on which each of them starts. -/
def gather {β : Type} (pick : Int → Piece → Option β) (before : List Char) (list : List Piece) :
    List β :=
  (placed before list).filterMap fun entry => pick (lineAfter entry.1) entry.2

theorem placed_append (before : List Char) (list list' : List Piece) :
    placed before (list ++ list') =
      placed before list ++ placed (before ++ list.flatMap text) list' := by
  induction list generalizing before with
  | nil => simp [placed]
  | cons piece rest ih => simp [placed, ih]

theorem placed_eq_map (before : List Char) (list : List Piece) :
    placed before list = (placed [] list).map fun entry => (before ++ entry.1, entry.2) := by
  suffices hfrom : ∀ middle, placed (before ++ middle) list =
      (placed middle list).map fun entry => (before ++ entry.1, entry.2) by
    simpa using hfrom []
  induction list with
  | nil => exact fun _ => rfl
  | cons piece rest ih =>
    intro middle
    simp [placed, ih]

theorem lineAfter_append (before middle : List Char) :
    lineAfter (before ++ middle) = before.count '\n' + lineAfter middle := by
  simp only [lineAfter, List.count_append]
  omega

section Gather

variable {β : Type} (pick : Int → Piece → Option β) (before : List Char)

theorem gather_append (list list' : List Piece) :
    gather pick before (list ++ list') =
      gather pick before list ++ gather pick (before ++ list.flatMap text) list' := by
  rw [gather, placed_append, List.filterMap_append]
  rfl

/-- Lines that are counted from behind some text come out right once its newlines are added. -/
theorem filterMap_pass (list : List Piece) :
    (((placed [] list).map fun entry => (lineAfter entry.1, entry.2)).filterMap fun entry =>
      pick (before.count '\n' + entry.1) entry.2) = gather pick before list := by
  rw [gather, placed_eq_map before, List.filterMap_map, List.filterMap_map]
  refine congrArg (List.filterMap · _) (funext fun entry => ?_)
  simp only [Function.comp_apply, lineAfter_append]

end Gather

theorem gather_token?_rejected (before : List Char) (c : Char) (list : List Piece) :
    gather token? before (rejected c :: list) = gather token? (before ++ [c]) list := rfl

theorem gather_error?_rejected (before : List Char) (c : Char) (list : List Piece) :
    gather error? before (rejected c :: list) =
      ⟨lineAfter before, .character c⟩ :: gather error? (before ++ [c]) list := rfl

end Piece

open Piece

/-! ## One pass -/

theorem cut_eq_rejected {c character : Char} {rest : List Char}
    (hcut : (cut c rest).1 = rejected character) :
    StartsNothing c ∧ character = c ∧ (cut c rest).2 = rest := by
  rcases spelled_cut_or_startsNothing c rest with hspelled | hnothing
  · rw [hcut] at hspelled
    cases hspelled
  · rw [cut_of_startsNothing hnothing] at hcut ⊢
    cases hcut
    exact ⟨hnothing, rfl, rfl⟩

/-- How a pass ends: at the end of the text, or at a character that starts nothing. -/
inductive PassEnds (position : Nat) (before cs : List Char) : Pass → Prop where
  | finished : PassEnds position before cs
      ⟨(placed before (pieces cs)).map fun entry => (lineAfter entry.1, entry.2), none⟩
  | stopped {list : List Piece} {c : Char} {rest : List Char} (hnothing : StartsNothing c)
    (htext : cs = list.flatMap text ++ c :: rest)
    (hpieces : pieces cs = list ++ rejected c :: pieces rest) :
    PassEnds position before cs
      ⟨(placed before list).map fun entry => (lineAfter entry.1, entry.2),
        some ⟨c, position + (list.flatMap text).length, lineAfter (before ++ list.flatMap text)⟩⟩

theorem passFrom_ends (position : Nat) (before cs : List Char) :
    PassEnds position before cs (passFrom position (lineAfter before) cs) := by
  generalize hline : lineAfter before = line
  fun_induction passFrom position line cs generalizing before with
  | case1 position line =>
    have hend := @PassEnds.finished position before []
    rwa [pieces] at hend
  | case2 position line c rest character hcut =>
    obtain ⟨hnothing, rfl, hrest⟩ := cut_eq_rejected hcut
    have hpieces : pieces (character :: rest) = [] ++ rejected character :: pieces rest := by
      rw [pieces, hcut, hrest]
      rfl
    have hend := @PassEnds.stopped position before _ [] character rest hnothing rfl hpieces
    simpa [placed, hline] using hend
  | case3 position line c rest hcut others ih =>
    subst hline
    have hnext : lineAfter (before ++ (cut c rest).1.text) =
        lineAfter before + (cut c rest).1.newlines := by
      simp only [lineAfter, List.count_append, newlines]
      omega
    have hend : PassEnds _ _ _ others := ih (before ++ (cut c rest).1.text) hnext
    have htext := text_cut c rest
    clear_value others
    cases hend with
    | finished =>
      have hend := @PassEnds.finished position before (c :: rest)
      rwa [pieces] at hend
    | @stopped list c' rest' hnothing hrest hpieces =>
      have hend := @PassEnds.stopped position before (c :: rest) ((cut c rest).1 :: list) c' rest'
        hnothing (by rw [← htext, hrest, List.flatMap_cons, List.append_assoc])
        (by rw [pieces, hpieces, List.cons_append])
      simpa [placed, Nat.add_assoc] using hend

/-! ## Any number of passes -/

theorem Piece.StartsNothing.count_newline {c : Char} (hc : StartsNothing c) : [c].count '\n' = 0 := by
  rw [List.count_eq_zero, List.mem_singleton]
  rintro rfl
  exact absurd hc.1 (by decide)

/-- Scanning from behind some text, with as many lines before as it has newlines, gives every piece
that follows the line it starts on in the whole text. -/
theorem scanFrom_eq (before cs : List Char) :
    scanFrom (before ++ cs) before.length (before.count '\n') =
      ⟨gather token? before (pieces cs), gather error? before (pieces cs)⟩ := by
  rw [scanFrom, List.drop_left]
  have hends : PassEnds 0 [] cs (passFrom 0 1 cs) := passFrom_ends 0 [] cs
  generalize passFrom 0 1 cs = pass at hends
  cases hends with
  | finished =>
    exact congr (congrArg Scan.mk (filterMap_pass token? before _)) (filterMap_pass error? before _)
  | @stopped list c rest hnothing htext hpieces =>
    -- The next pass begins behind `behind`, whose newlines are those before the character.
    let behind := before ++ list.flatMap text ++ [c]
    have hoffset : before.length + (0 + (list.flatMap text).length) + 1 = behind.length := by
      simp only [behind, List.length_append, List.length_singleton]
      omega
    have hbase : (before.count '\n' : Int) + lineAfter ([] ++ list.flatMap text) - 1 =
        behind.count '\n' := by
      simp only [behind, List.nil_append, List.count_append, hnothing.count_newline, lineAfter]
      omega
    have hwhole : before ++ cs = behind ++ rest := by
      simp [behind, htext]
    have ih := scanFrom_eq behind rest
    rw [← hwhole, ← hoffset, ← hbase] at ih
    have htokens := filterMap_pass token? before list
    have herrors := filterMap_pass error? before list
    dsimp only
    rw [ih, htokens, herrors, hpieces, gather_append, gather_token?_rejected, gather_append,
      gather_error?_rejected, lineAfter_append before]
    rfl
termination_by cs.length
decreasing_by
  simp only [htext, List.length_append, List.length_cons]
  omega

/-- A scan goes through the pieces of the source once. -/
theorem scan_eq (source : String) :
    scan source =
      ⟨gather token? [] (pieces source.toList) ++ [Token.endAt (lineAfter source.toList)],
        gather error? [] (pieces source.toList)⟩ := by
  have hscan : scanFrom source.toList 0 0 =
      ⟨gather token? [] (pieces source.toList), gather error? [] (pieces source.toList)⟩ :=
    scanFrom_eq [] source.toList
  rw [scan, hscan]
  rfl

/-! ## Literals -/

/-- What lexemes stand for, by their texts. -/
inductive Denotes : Kind → List Char → Json → Prop where
  | string {body : List Char} (hbody : '"' ∉ body) :
    Denotes .string ('"' :: body ++ ['"']) (.str (String.ofList body))
  | integer {digits : List Char} (hall : ∀ d ∈ digits, d.isDigit = true) :
    Denotes .number digits (.float (Decimal.ofParts digits []).toFloat)
  | fraction {whole part : List Char} (hall : ∀ d ∈ whole, d.isDigit = true)
    (hall' : ∀ d ∈ part, d.isDigit = true) :
    Denotes .number (whole ++ '.' :: part) (.float (Decimal.ofParts whole part).toFloat)
  | nothing {kind : Kind} {text : List Char} (hstring : kind ≠ .string) (hnumber : kind ≠ .number) :
    Denotes kind text .null

theorem literalOf_of_ne {kind : Kind} (text : List Char) (hstring : kind ≠ .string)
    (hnumber : kind ≠ .number) : literalOf kind text = .null := by
  unfold literalOf
  split
  · exact absurd rfl hnumber
  · exact absurd rfl hstring
  · rfl

theorem denotes_of_ne {kind : Kind} (text : List Char) (h : kind ≠ .string ∧ kind ≠ .number) :
    Denotes kind text (literalOf kind text) := by
  rw [literalOf_of_ne text h.1 h.2]
  exact .nothing h.1 h.2

theorem literalOf_integer {digits : List Char} (hall : ∀ d ∈ digits, d.isDigit = true) :
    literalOf .number digits = .float (Decimal.ofParts digits []).toFloat := by
  rw [literalOf, numberOf, takeWhile_of_all hall, dropWhile_of_all hall]
  rfl

theorem literalOf_fraction {whole : List Char} (hall : ∀ d ∈ whole, d.isDigit = true)
    (part : List Char) :
    literalOf .number (whole ++ '.' :: part) = .float (Decimal.ofParts whole part).toFloat := by
  rw [literalOf, numberOf, List.takeWhile_append_of_pos hall, List.dropWhile_append_of_pos hall,
    List.takeWhile_cons_of_neg (by decide), List.dropWhile_cons_of_neg (by decide),
    List.append_nil]
  rfl

theorem literalOf_string (body : List Char) :
    literalOf .string ('"' :: body ++ ['"']) = .str (String.ofList body) := by
  rw [literalOf, List.cons_append, List.drop_one, List.tail_cons, List.dropLast_concat]

theorem denotes_literalOf {kind : Kind} {text : List Char}
    (hspelled : (lexeme kind text).Spelled) : Denotes kind text (literalOf kind text) := by
  cases hspelled with
  | reserved _ hkind _ =>
    have hall : ∀ kind ∈ Kind.reserved, kind ≠ .string ∧ kind ≠ .number := by decide
    exact denotes_of_ne text (hall kind hkind)
  | identifier => exact denotes_of_ne text (by decide)
  | integer _ hall =>
    rw [literalOf_integer hall]
    exact .integer hall
  | @fraction whole part _ hall _ hall' =>
    rw [literalOf_fraction hall]
    exact .fraction hall hall'
  | @string body hbody =>
    rw [literalOf_string]
    exact .string hbody
  | mark hmark =>
    unfold mark? at hmark
    split at hmark
    case h_16 => cases hmark
    all_goals
      cases hmark
      exact denotes_of_ne _ (by decide)
  | markWithEqual hmark =>
    unfold markWithEqual? at hmark
    split at hmark
    case h_5 => cases hmark
    all_goals
      cases hmark
      exact denotes_of_ne _ (by decide)

/-! ## The result of a scan -/

/-- A source text is made of pieces in exactly one way such that each of them is the longest that
can stand in its place. The scan has one token for every lexeme and one error for every rejected
character and for a string without an end, in their order, and each is on the line that its piece
starts on, however often the scan had to start again; the last token is the end, on the last line. -/
theorem scan_decomposes (source : String) :
    ∃ list : List Piece, list.flatMap text = source.toList ∧ AllStand list ∧
      (∀ other, other.flatMap text = source.toList → AllStand other → other = list) ∧
      (∀ kind text, lexeme kind text ∈ list → Denotes kind text (literalOf kind text)) ∧
      (scan source).tokens =
        ((placed [] list).filterMap fun entry => entry.2.token? (1 + entry.1.count '\n')) ++
          [Token.endAt (1 + source.toList.count '\n')] ∧
      (scan source).errors =
        (placed [] list).filterMap fun entry => entry.2.error? (1 + entry.1.count '\n') := by
  refine ⟨pieces source.toList, text_pieces _, allStand_pieces _, ?_, ?_, ?_, ?_⟩
  · intro other htext hother
    rw [← htext]
    exact eq_pieces hother
  · intro kind text hmem
    obtain ⟨after, hstands⟩ := (allStand_pieces source.toList).stands hmem
    exact denotes_literalOf hstands.1
  · rw [scan_eq]
    rfl
  · rw [scan_eq]
    rfl

end Lox
