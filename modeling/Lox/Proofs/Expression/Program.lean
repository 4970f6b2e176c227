import Lox.Session
import Lox.Proofs.Grammar.Statement
import Lox.Proofs.Scan.Front

/-!
# The program that prints an expression

A text is made a program by a keyword in front of it and a semicolon on a line of its own behind it,
where no comment of the text reaches. The tokens of the program are those of the text between these
two, and what is wrong with the text, a string without an end included, is wrong with the program.
So if neither of them nests too deeply, the text is one expression just if the program is one print
statement, and then it prints that expression (`ofSource_printing`, `parseExpression_of_printing`).
-/

namespace Lox

open Piece Grammar Lox.Parser

def printing (source : String) : String :=
  "print " ++ source ++ "\n;"

/-! ## Strings without an end -/

namespace Piece

theorem openString_mem_of_separator {c : Char} (hc : isSeparator c = true) {cs text : List Char}
    (hmem : openString text ∈ pieces (c :: cs)) : openString text ∈ pieces cs := by
  rw [pieces_separator hc, List.mem_cons] at hmem
  have hmem := hmem.resolve_left nofun
  rcases pieces_eq_blank_or cs with ⟨_, -, hpieces⟩ | ⟨-, hdrop⟩
  · rw [hpieces]
    exact List.mem_cons_of_mem _ hmem
  · rwa [hdrop] at hmem

/-- A string that has no end where the text ends has none in what is added without a quote. -/
theorem cut_openString {c : Char} {cs text : List Char} (hcut : (cut c cs).1 = openString text)
    {more : List Char} (hmore : '"' ∉ more) :
    ∃ longer, (cut c (cs ++ more)).1 = openString longer := by
  have hquote : c = '"' := by
    have hspelled := stands_cut c cs
    have htext := text_cut c cs
    rw [hcut] at hspelled htext
    cases hspelled.1
    exact (List.cons.inj htext).1.symm
  subst hquote
  have hbody : ∀ d ∈ cs, (d != '"') = true := by
    rw [cut_quote, cutString] at hcut
    split at hcut
    · cases hcut
    · next hdrop =>
      rw [← @List.takeWhile_append_dropWhile _ (· != '"') cs, hdrop, List.append_nil]
      exact List.all_eq_true.1 List.all_takeWhile
  have hall : ∀ d ∈ cs ++ more, (d != '"') = true :=
    List.forall_mem_append.2 ⟨hbody, ne_quote_of_not_mem hmore⟩
  refine ⟨'"' :: (cs ++ more).takeWhile (· != '"'), ?_⟩
  simp [cut_quote, cutString, dropWhile_of_all hall]

/-- A string without an end has none either if a line without a quote comes after it. -/
theorem openString_mem_newline {cs text : List Char} (hmem : openString text ∈ pieces cs)
    {after : List Char} (hafter : '"' ∉ after) :
    ∃ longer, openString longer ∈ pieces (cs ++ '\n' :: after) := by
  induction hlength : cs.length using Nat.strongRecOn generalizing cs with
  | ind length ih =>
  subst hlength
  cases cs with
  | nil =>
    rw [pieces] at hmem
    cases hmem
  | cons c rest =>
    cases hc : isSeparator c with
    | true =>
      obtain ⟨longer, hlonger⟩ := ih rest.length (by simp) (openString_mem_of_separator hc hmem) rfl
      exact ⟨longer, openString_mem_separator hc hlonger⟩
    | false =>
      rw [pieces_cons, List.mem_cons] at hmem
      by_cases hopen : ∃ own, (cut c rest).1 = openString own
      · obtain ⟨own, hcut⟩ := hopen
        have hmore : '"' ∉ '\n' :: after := by simpa using hafter
        obtain ⟨longer, hlonger⟩ := cut_openString hcut hmore
        refine ⟨longer, ?_⟩
        rw [List.cons_append, pieces_cons, ← hlonger]
        exact List.mem_cons_self
      · -- the piece ends before the newline, and the string comes later
        have hclosed : ∀ own, (cut c rest).1 ≠ openString own := fun own hcut => hopen ⟨own, hcut⟩
        have hlater := hmem.resolve_left fun hcut => hclosed text hcut.symm
        obtain ⟨longer, hlonger⟩ := ih (cut c rest).2.length (length_cut c rest) hlater rfl
        refine ⟨longer, ?_⟩
        rw [List.cons_append, pieces_cons, cut_stops hc hclosed after]
        exact List.mem_cons_of_mem _ hlonger

end Piece

/-! ## Scanning -/

section Scan

variable {β : Type} {pick : Int → Piece → Option β}

/-- The pieces of the keyword that is put in front. -/
theorem gather_print (hblank : ∀ line text, pick line (blank text) = none) (cs : List Char) :
    gather pick [] (pieces ("print ".toList ++ cs)) =
      (pick 1 (lexeme .printWord "print".toList)).toList ++
        gather pick "print ".toList (pieces cs) := by
  have hcut : cut 'p' ("rint".toList ++ ' ' :: cs) =
      (lexeme .printWord "print".toList, ' ' :: cs) := by
    rw [cut_word _ (by decide), cutWord,
      takeWhile_append_stop (by decide : continuesWord ' ' = false),
      dropWhile_append_stop (by decide : continuesWord ' ' = false)]
    rfl
  have htext : "print ".toList ++ cs = 'p' :: ("rint".toList ++ ' ' :: cs) := rfl
  rw [htext, pieces_cons, hcut, gather_cons, gather_separator hblank _ (by decide)]
  rfl

end Scan

/-- What is put in front has no newline, so that the lines stay as they are. -/
theorem gather_token?_print (list : List Piece) :
    gather token? "print ".toList list = gather token? [] list := by
  have hunmoved : Token.moved 0 = id := by
    funext t
    simp [Token.moved]
  have hcount : (("print ".toList.count '\n' : Nat) : Int) = 0 := rfl
  rw [gather_moved token?_moved, hcount, hunmoved, List.map_id]

theorem toList_printing (source : String) :
    (printing source).toList = "print ".toList ++ (source.toList ++ '\n' :: [';']) := by
  rw [printing, String.toList_append, String.toList_append, List.append_assoc]
  rfl

theorem pieces_semicolon : pieces [';'] = [lexeme .semicolon [';']] :=
  (Spelled.mark rfl : (lexeme .semicolon [';']).Spelled).pieces_text

/-- The program of a text without errors has none, and its tokens are those of the text between a
keyword and a semicolon. -/
theorem scan_printing {source : String} (herrors : (scan source).errors = []) :
    (scan (printing source)).errors = [] ∧
      ∃ keyword semicolon, keyword.kind = .printWord ∧ semicolon.kind = .semicolon ∧
        sourceTokens (printing source) = keyword :: (sourceTokens source ++ [semicolon]) := by
  have hclosed := closed_of_errors herrors
  rw [scan_errors] at herrors
  constructor
  · rw [scan_errors, toList_printing, gather_print fun _ _ => rfl,
      gather_newline error? (fun _ _ => rfl) _ hclosed, gather_moved error?_moved "print ".toList,
      herrors, pieces_semicolon]
    rfl
  · let line := lineAfter ("print ".toList ++ (source.toList ++ ['\n']))
    refine ⟨⟨.printWord, .str "print", .null, 1⟩, ⟨.semicolon, .str ";", .null, line⟩, rfl, rfl, ?_⟩
    rw [sourceTokens, toList_printing, gather_print fun _ _ => rfl,
      gather_newline token? (fun _ _ => rfl) _ hclosed, gather_token?_print, pieces_semicolon]
    rfl

/-- What is wrong with a text is wrong with its program. -/
theorem errors_of_printing {source : String} (herrors : (scan (printing source)).errors = []) :
    (scan source).errors = [] := by
  rw [scan_errors, toList_printing, gather_print fun _ _ => rfl] at herrors
  have hrest := (List.append_eq_nil_iff.1 herrors).2
  have hclosed : ∀ text, openString text ∉ pieces source.toList := by
    intro text hmem
    obtain ⟨longer, hlonger⟩ := openString_mem_newline hmem (by decide : '"' ∉ [';'])
    obtain ⟨line, hnone⟩ := pick_eq_none_of_gather hrest hlonger
    cases hnone
  rw [gather_newline error? (fun _ _ => rfl) _ hclosed, gather_moved error?_moved "print ".toList,
    List.append_eq_nil_iff, List.map_eq_nil_iff] at hrest
  rw [scan_errors]
  exact hrest.1

/-! ## Parsing -/

section Parse

variable {limit : Nat} {tokens : List Token} {tree : Node}

theorem expr_of_parseExpression (hparse : parseExpression limit tokens = .ok tree) :
    Expr .language .assignment (tokens.takeWhile (·.kind != .eof)) tree := by
  rw [← beforeEnd_fst]
  unfold parseExpression at hparse
  cases hrun : expression limit (beforeEnd tokens).1 with
  | ok node rest =>
    obtain ⟨taken, htaken, hexpr⟩ := (expression_sound limit).2 _ _ _ hrun
    cases rest with
    | nil =>
      simp only [hrun, Except.ok.injEq] at hparse
      subst hparse
      rwa [htaken, List.append_nil]
    | cons t rest => simp [hrun] at hparse
  | error halt rest => cases halt <;> simp [hrun] at hparse

theorem parseExpression_of_expr (limit : Nat)
    (hexpr : Expr .language .assignment (tokens.takeWhile (·.kind != .eof)) tree) :
    parseExpression limit tokens = .ok tree ∨
      ∃ error, parseExpression limit tokens = .error error ∧ error.complaint = .nesting := by
  have hreads := hexpr.reads limit [] stops_nil
  rw [List.append_nil, ← beforeEnd_fst] at hreads
  unfold parseExpression
  rcases hreads with hok | ⟨rest, hdeep⟩
  · have hrun : expression limit (beforeEnd tokens).1 = .ok tree [] := hok
    simp [hrun]
  · have hrun : expression limit (beforeEnd tokens).1 = .error .tooDeep rest := hdeep
    simp [hrun, Fault.toError]

/-- An expression between a keyword and a semicolon is one print statement, and nothing else is. -/
theorem derives_print_iff {keyword semicolon : Token} (hkeyword : keyword.kind = .printWord)
    (hsemicolon : semicolon.kind = .semicolon) :
    Derives .language (keyword :: (tokens ++ [semicolon])) [.printStmt tree] ↔
      Expr .language .assignment tokens tree := by
  constructor
  · rintro ⟨parts, hparts, htokens, htrees⟩
    obtain ⟨⟨own, _⟩, rfl, rfl⟩ := List.map_eq_singleton_iff.1 htrees.symm
    rw [partTokens_cons, partTokens_nil, List.append_nil] at htokens
    have hstmt : Stmt .language .declaration own (.printStmt tree) := hparts _ List.mem_cons_self
    cases hstmt with
    | statement hstmt =>
      cases hstmt with
      | print _ _ hexpr =>
        obtain ⟨rfl, -⟩ := List.append_inj' (List.cons.inj htokens).2 rfl
        exact hexpr
  · intro hexpr
    refine ⟨[⟨keyword :: (tokens ++ [semicolon]), .printStmt tree⟩], ?_, by simp, rfl⟩
    rw [List.forall_mem_singleton]
    exact .statement (.print hkeyword hsemicolon hexpr)

end Parse

/-! ## Programs -/

section Program

variable {source : String} {tree : Node}

/-- The program of an expression is one print statement, unless its nesting is too deep. -/
theorem ofSource_printing (hscan : (scan source).errors = [])
    (hparse : parseExpression nestingLimit (scan source).tokens = .ok tree) :
    Program.ofSource (printing source) = ⟨[.printStmt tree], []⟩ ∨
      Complaint.nesting.message ∈
        (Program.ofSource (printing source)).errors.map Diagnostic.message := by
  have hexpr := expr_of_parseExpression hparse
  obtain ⟨hnone, keyword, semicolon, hkeyword, hsemicolon, htokens⟩ := scan_printing hscan
  rw [takeWhile_scan_tokens, ← derives_print_iff hkeyword hsemicolon, ← htokens,
    ← takeWhile_scan_tokens] at hexpr
  rcases parse_of_derives nestingLimit hexpr with ⟨herrors, hstatements⟩ | ⟨error, hmem, hdeep⟩
  · left
    rw [Program.ofSource, Program.under, hnone, herrors, hstatements]
    rfl
  · right
    have hreported : .parse error ∈ (Program.ofSource (printing source)).errors :=
      List.mem_append_right _ (List.mem_map_of_mem hmem)
    rw [← hdeep]
    exact List.mem_map_of_mem hreported

/-- If the program of a text is one print statement, then the text is an expression, unless its
nesting is too deep. -/
theorem parseExpression_of_printing
    (hprogram : Program.ofSource (printing source) = ⟨[.printStmt tree], []⟩) :
    (scan source).errors = [] ∧
      (parseExpression nestingLimit (scan source).tokens = .ok tree ∨
        ∃ error, parseExpression nestingLimit (scan source).tokens = .error error ∧
          error.complaint = .nesting) := by
  have herrors := congrArg Program.errors hprogram
  have hstatements := congrArg Program.statements hprogram
  obtain ⟨hscan, hparse⟩ := List.append_eq_nil_iff.1 herrors
  rw [List.map_eq_nil_iff] at hscan hparse
  have hnone := errors_of_printing hscan
  obtain ⟨-, keyword, semicolon, hkeyword, hsemicolon, htokens⟩ := scan_printing hnone
  have hderives := derives_of_parse hparse
  rw [show (parse nestingLimit (scan (printing source)).tokens).statements = _ from hstatements,
    takeWhile_scan_tokens, htokens, derives_print_iff hkeyword hsemicolon,
    ← takeWhile_scan_tokens] at hderives
  exact ⟨hnone, parseExpression_of_expr nestingLimit hderives⟩

end Program

end Lox
