import Mathlib.Data.List.TakeWhile
import Lox.Proofs.Parser.Limit
import Lox.Proofs.Parser.Recovery

/-!
# What a declaration that nests too deeply costs

A declaration at the top level that nests too deeply is skipped from its start, by its braces and
semicolons alone. They tell where it ends unless it has an `else` outside of braces: the search then
ends in front of the first one, where what comes before the `else` ends. What is left begins with
the `else`, which starts no declaration, and so costs one more error.
-/

namespace Lox

open Lox.Computation Grammar

namespace Node

/-- Whether a statement has an `else` outside of braces. -/
def hasElse : Node → Bool
  | ifStmt _ thenBranch absent => thenBranch.hasElse
  | ifStmt _ _ _ => true
  | whileStmt _ body => body.hasElse
  | _ => false

theorem hasElse_ifElse {condition thenBranch elseBranch : Node} (helse : elseBranch ≠ absent) :
    (ifStmt condition thenBranch elseBranch).hasElse = true := by
  cases elseBranch with
  | absent => exact absurd rfl helse
  | _ => rfl

end Node

namespace Parser

/-! ## Skipping over a declaration -/

section Skip

variable {conditions : SideConditions} {clause : Clause} {tokens left : List Token}
  {tree : Node}

theorem skipStatement_append_of_plain (hplain : Plain tokens) (depth : Nat) (rest : List Token) :
    skipStatement depth (tokens ++ rest) = skipStatement depth rest := by
  induction tokens with
  | nil => rfl
  | cons t tokens ih =>
    obtain ⟨hsemicolon, hopening, hclosing⟩ := hplain t List.mem_cons_self
    rw [List.cons_append, skipStatement]
    split
    · next hkind => exact absurd hkind hopening
    · next hkind => exact absurd hkind hclosing
    · next hkind => exact absurd hkind hsemicolon
    · exact ih (hplain.of_suffix (List.suffix_cons t tokens))

theorem plain_of_expr {rank : Rank} (hexpr : Expr conditions rank tokens tree) : Plain tokens := by
  intro t ht
  have hkind := hexpr.kind_ne t ht
  simp only [List.mem_cons, List.not_mem_nil, or_false, not_or] at hkind
  exact hkind.2

/-- A condition in parentheses is skipped over with its keyword. -/
theorem skipStatement_condition {keyword opening closing : Token} {condition : Node}
    (hkeyword : keyword.kind = .ifWord ∨ keyword.kind = .whileWord)
    (hopening : opening.kind = .leftParen) (hclosing : closing.kind = .rightParen)
    (hcondition : Expr conditions .assignment tokens condition) (depth : Nat) (rest : List Token) :
    skipStatement depth (keyword :: opening :: (tokens ++ closing :: rest)) =
      skipStatement depth rest := by
  have hplain : Plain (keyword :: opening :: (tokens ++ [closing])) := by
    intro t ht
    simp only [List.mem_cons, List.mem_append, List.not_mem_nil, or_false] at ht
    rcases ht with rfl | rfl | ht | rfl
    · rcases hkeyword with hkind | hkind <;> simp [hkind]
    · simp [hopening]
    · exact plain_of_expr hcondition t ht
    · simp [hclosing]
  simpa using skipStatement_append_of_plain hplain depth rest

/-- What holds of each declaration of a block holds of them together. -/
theorem skipStatement_partTokens {parts : List Part}
    (hparts : ∀ part ∈ parts, ∀ depth rest,
      skipStatement (depth + 1) (part.tokens ++ rest) = skipStatement (depth + 1) rest)
    (depth : Nat) (rest : List Token) :
    skipStatement (depth + 1) (partTokens parts ++ rest) = skipStatement (depth + 1) rest := by
  induction parts with
  | nil => rfl
  | cons part parts ih =>
    rw [List.forall_mem_cons] at hparts
    rw [partTokens_cons, List.append_assoc, hparts.1, ih hparts.2]

/-- Inside of braces, a declaration is skipped over. -/
theorem skipStatement_append_of_stmt (hstmt : Stmt conditions clause tokens tree) (depth : Nat)
    (rest : List Token) :
    skipStatement (depth + 1) (tokens ++ rest) = skipStatement (depth + 1) rest := by
  induction hstmt generalizing depth rest with
  | print hkeyword hsemicolon hvalue =>
    have hskip := skipStatement_append_of_plain (plain_of_expr hvalue) (depth + 1)
    simp [skipStatement, hkeyword, hskip, hsemicolon]
  | @block _ _ parts hopening hclosing _ ih =>
    have hskip := skipStatement_partTokens ih (depth + 1)
    simp [skipStatement, hopening, hskip, hclosing]
  | ifThen hkeyword hopening hclosing hcondition _ ih =>
    have hskip := skipStatement_condition (.inl hkeyword) hopening hclosing hcondition (depth + 1)
    simp [hskip, ih]
  | ifElse hkeyword hopening hclosing hotherwise hcondition _ _ _ ih ih' =>
    have hskip := skipStatement_condition (.inl hkeyword) hopening hclosing hcondition (depth + 1)
    simp [hskip, ih, skipStatement, hotherwise, ih']
  | whileLoop hkeyword hopening hclosing hcondition _ ih =>
    have hskip := skipStatement_condition (.inr hkeyword) hopening hclosing hcondition (depth + 1)
    simp [hskip, ih]
  | expression hsemicolon hvalue =>
    have hskip := skipStatement_append_of_plain (plain_of_expr hvalue) (depth + 1)
    simp [skipStatement, hskip, hsemicolon]
  | declare hkeyword hname hsemicolon => simp [skipStatement, hkeyword, hname, hsemicolon]
  | declareAs hkeyword hname hequal hsemicolon hvalue =>
    have hskip := skipStatement_append_of_plain (plain_of_expr hvalue) (depth + 1)
    simp [skipStatement, hkeyword, hname, hequal, hskip, hsemicolon]
  | statement _ ih => exact ih depth rest

/-- The rear part of a declaration that is left over when it is skipped from its start. -/
structure LeavesOver (tree : Node) (tokens left : List Token) : Prop where
  suffix : left <:+ tokens
  skip : ∀ rest, skipStatement 0 (tokens ++ rest) = left ++ rest
  whole : tree.hasElse = false → left = []
  cut : tree.hasElse = true → beginsWith (· = .elseWord) left = true

theorem leavesOver_nil (hsimple : tree.hasElse = false)
    (hskip : ∀ rest, skipStatement 0 (tokens ++ rest) = rest) : LeavesOver tree tokens [] where
  suffix := List.nil_suffix
  skip := hskip
  whole _ := rfl
  cut helse := absurd helse (by simp [hsimple])

theorem LeavesOver.guarded {keyword opening closing : Token} {inner : List Token}
    {condition body : Node} (h : LeavesOver body tokens left)
    (hkeyword : keyword.kind = .ifWord ∨ keyword.kind = .whileWord)
    (hopening : opening.kind = .leftParen) (hclosing : closing.kind = .rightParen)
    (hcondition : Expr conditions .assignment inner condition)
    (helse : tree.hasElse = body.hasElse) :
    LeavesOver tree (keyword :: opening :: (inner ++ closing :: tokens)) left where
  suffix := by
    refine h.suffix.trans ⟨keyword :: opening :: (inner ++ [closing]), ?_⟩
    simp
  skip rest := by
    have hskip := skipStatement_condition hkeyword hopening hclosing hcondition 0
    simp [hskip, h.skip]
  whole hwhole := h.whole (helse ▸ hwhole)
  cut hcut := h.cut (helse ▸ hcut)

theorem LeavesOver.beforeElse {inner : Node} (h : LeavesOver inner tokens left) {otherwise : Token}
    (hotherwise : otherwise.kind = .elseWord) (helse : tree.hasElse = true) (after : List Token) :
    LeavesOver tree (tokens ++ otherwise :: after) (left ++ otherwise :: after) where
  suffix := by
    obtain ⟨taken, rfl⟩ := h.suffix
    exact ⟨taken, (List.append_assoc taken left _).symm⟩
  skip rest := by rw [List.append_assoc, h.skip, List.append_assoc]
  whole hwhole := absurd hwhole (by simp [helse])
  cut _ := by
    cases left with
    | nil => simp [beginsWith, hotherwise]
    | cons t left =>
      cases hinner : inner.hasElse with
      | false => exact absurd (h.whole hinner) (List.cons_ne_nil t left)
      | true => exact h.cut hinner

/-- Outside of braces, a declaration is skipped over up to its first `else`, or to its end. -/
theorem exists_leavesOver (hstmt : Stmt conditions clause tokens tree) :
    ∃ left, LeavesOver tree tokens left := by
  induction hstmt with
  | print hkeyword hsemicolon hvalue =>
    have hskip := skipStatement_append_of_plain (plain_of_expr hvalue) 0
    exact ⟨[], leavesOver_nil rfl fun rest => by simp [skipStatement, hkeyword, hskip, hsemicolon]⟩
  | @block _ _ parts hopening hclosing hparts _ =>
    have hskip := skipStatement_partTokens (fun part hpart =>
      skipStatement_append_of_stmt (hparts part hpart)) 0
    exact ⟨[], leavesOver_nil rfl fun rest => by simp [skipStatement, hopening, hskip, hclosing]⟩
  | ifThen hkeyword hopening hclosing hcondition _ ih =>
    obtain ⟨left, hleft⟩ := ih
    exact ⟨left, hleft.guarded (.inl hkeyword) hopening hclosing hcondition rfl⟩
  | @ifElse _ _ _ otherwise _ _ after condition thenBranch elseBranch hkeyword hopening hclosing
      hotherwise hcondition _ _ helse ih _ =>
    obtain ⟨left, hleft⟩ := ih
    have helseIf : (Node.ifStmt condition thenBranch elseBranch).hasElse = true :=
      Node.hasElse_ifElse helse.ne_absent
    have hthen : LeavesOver (.ifStmt condition thenBranch .absent) _ left :=
      hleft.guarded (.inl hkeyword) hopening hclosing hcondition rfl
    have hcut := hthen.beforeElse hotherwise helseIf after
    exact ⟨left ++ otherwise :: after, by simpa using hcut⟩
  | whileLoop hkeyword hopening hclosing hcondition _ ih =>
    obtain ⟨left, hleft⟩ := ih
    exact ⟨left, hleft.guarded (.inr hkeyword) hopening hclosing hcondition rfl⟩
  | expression hsemicolon hvalue =>
    have hskip := skipStatement_append_of_plain (plain_of_expr hvalue) 0
    exact ⟨[], leavesOver_nil rfl fun rest => by simp [skipStatement, hskip, hsemicolon]⟩
  | declare hkeyword hname hsemicolon =>
    exact ⟨[], leavesOver_nil rfl fun rest => by simp [skipStatement, hkeyword, hname, hsemicolon]⟩
  | declareAs hkeyword hname hequal hsemicolon hvalue =>
    have hskip := skipStatement_append_of_plain (plain_of_expr hvalue) 0
    exact ⟨[], leavesOver_nil rfl fun rest => by
      simp [skipStatement, hkeyword, hname, hequal, hskip, hsemicolon]⟩
  | statement _ ih => exact ih

end Skip

/-! ## What comes after it -/

/-- An `else` starts no expression, within any limit. -/
theorem expression_of_else (limit : Nat) {otherwise : Token} (hkind : otherwise.kind = .elseWord)
    (rest : List Token) :
    ∃ halt, expression limit (otherwise :: rest) = .error halt (otherwise :: rest) ∧
      (halt = .tooDeep ∨ halt = .fault ⟨otherwise :: rest, .expression⟩) := by
  have hunary (limit : Nat) : ∃ halt,
      unary limit (otherwise :: rest) = .error halt (otherwise :: rest) ∧
        (halt = .tooDeep ∨ halt = .fault ⟨otherwise :: rest, .expression⟩) := by
    cases limit with
    | zero => exact ⟨.tooDeep, rfl, .inl rfl⟩
    | succ limit =>
      refine ⟨.fault ⟨otherwise :: rest, .expression⟩, unary_of_other ?_ ?_ ?_ rest, .inr rfl⟩
      · simp [hkind, isUnaryOperator]
      · simp [hkind]
      · simp [leaf?, hkind]
  cases limit with
  | zero => exact ⟨.tooDeep, rfl, .inl rfl⟩
  | succ limit =>
    obtain ⟨halt, hrun, hhalt⟩ := hunary limit
    refine ⟨halt, ?_, hhalt⟩
    rw [expression, assignment_eq_bind]
    refine bind_of_error ?_ _
    exact bind_of_error (bind_of_error (bind_of_error (bind_of_error hrun _) _) _) _

/-- An `else` starts no declaration, within any limit. -/
theorem clauseParser_of_else (limit : Nat) {otherwise : Token} (hkind : otherwise.kind = .elseWord)
    (rest : List Token) (reports : List Fault) :
    ∃ halt, clauseParser limit .declaration ⟨otherwise :: rest, reports⟩ =
        .error halt ⟨otherwise :: rest, reports⟩ ∧
      (halt = .tooDeep ∨ halt = .fault ⟨otherwise :: rest, .expression⟩) := by
  rw [clauseParser_of_other (by simp [hkind])]
  cases limit with
  | zero => exact ⟨.tooDeep, rfl, .inl rfl⟩
  | succ limit =>
    obtain ⟨halt, hrun, hhalt⟩ := expression_of_else limit hkind rest
    refine ⟨halt, ?_, hhalt⟩
    rw [statement_of_other (by simp [hkind])]
    refine bind_of_error ?_ _
    simp [quietly, hrun]

/-- The loop over a program that begins with an `else` meets its first fault there. -/
theorem topLevel_of_else (limit : Nat) {otherwise : Token} (hkind : otherwise.kind = .elseWord)
    (rest : List Token) :
    ∃ complaint later, (topLevel limit (otherwise :: rest).length ⟨otherwise :: rest, []⟩).2 =
      later ++ [⟨otherwise :: rest, complaint⟩] := by
  have hnext : ∃ complaint s', s'.reports = [⟨otherwise :: rest, complaint⟩] ∧
      (topLevel limit (otherwise :: rest).length ⟨otherwise :: rest, []⟩).2 =
        (topLevel limit rest.length s').2 := by
    have hrecovers := declaration_eq_recovering limit
    obtain ⟨halt, hrun, rfl | rfl⟩ := clauseParser_of_else limit hkind rest []
    · have hdeep : declaration (expression limit) (statement limit) ⟨otherwise :: rest, []⟩ =
          .error .tooDeep ⟨otherwise :: rest, []⟩ := by rw [hrecovers, recovering, hrun]
      refine ⟨.nesting, ⟨skipStatement 0 (otherwise :: rest), [_]⟩, rfl, ?_⟩
      rw [List.length_cons, topLevel_of_tooDeep (List.cons_ne_nil _ _) hdeep]
    · have hok : declaration (expression limit) (statement limit) ⟨otherwise :: rest, []⟩ =
          .ok none ⟨synchronize (otherwise :: rest), [⟨otherwise :: rest, .expression⟩]⟩ := by
        rw [hrecovers, recovering, hrun]
      refine ⟨.expression, ⟨synchronize (otherwise :: rest), [_]⟩, rfl, ?_⟩
      rw [List.length_cons, topLevel_of_ok (List.cons_ne_nil _ _) hok]
  obtain ⟨complaint, s', hreports, htop⟩ := hnext
  obtain ⟨later, hlater⟩ := reports_suffix_topLevel limit rest.length s'
  rw [hreports] at hlater
  exact ⟨complaint, later, htop.trans hlater.symm⟩

/-- A program that begins with an `else` has its first error there. -/
theorem parse_of_else (limit : Nat) {otherwise : Token} (hkind : otherwise.kind = .elseWord)
    (rest : List Token) :
    ∃ error others, (parse limit (otherwise :: rest)).errors = error :: others ∧
      error.token = otherwise := by
  have hend : ∀ t ∈ [otherwise], t.kind ≠ .eof := by simp [hkind]
  have hbody : (beforeEnd (otherwise :: rest)).1 = otherwise :: (beforeEnd rest).1 :=
    beforeEnd_append hend rest
  obtain ⟨complaint, later, htop⟩ := topLevel_of_else limit hkind (beforeEnd rest).1
  refine ⟨⟨otherwise, complaint⟩, later.reverse.map (·.toError (beforeEnd (otherwise :: rest)).2),
    ?_, rfl⟩
  simp only [parse, hbody, htop, List.reverse_append, List.reverse_singleton,
    List.singleton_append, List.map_cons]
  rfl

theorem stops_beforeEnd {kinds : List Kind} {tokens : List Token} (hstops : Stops kinds tokens) :
    Stops kinds (beforeEnd tokens).1 := by
  rw [beforeEnd_fst]
  cases tokens with
  | nil => exact stops_nil
  | cons t tail =>
    rw [List.takeWhile_cons]
    split
    · exact stops_cons (hstops t rfl)
    · exact stops_nil

/-- A declaration that nests too deeply by itself nests too deeply in front of other tokens. -/
theorem stops_of_nesting {limit : Nat} {declared rest : List Token} {tree : Node}
    (hstmt : Stmt .language .declaration declared tree)
    (hdeep : ∃ error ∈ (parse limit declared).errors, error.complaint = .nesting)
    (hrest : Stops [.elseWord] rest) :
    ∃ t ∈ declared, ∃ tail, declaration (expression limit) (statement limit)
      ⟨declared ++ rest, []⟩ = .error .tooDeep ⟨t :: tail, []⟩ := by
  refine (reads_or_stops_within hstmt (fun _ => hrest) [] limit).resolve_left fun hok => ?_
  -- What is read in front of the rest is read alone as well, and then there is no error.
  obtain ⟨taken, -, htaken, hlocal⟩ :=
    ((predicts_declaration (predicts_statement limit)).everywhere _).ok hok
  obtain rfl := List.append_cancel_right htaken
  have halone := hlocal [] (hrest.beginsWith_eq_false (by simp))
  rw [List.append_nil] at halone
  obtain ⟨error, herror, -⟩ := hdeep
  obtain ⟨t, tail, rfl, -⟩ := hstmt.begins
  have hbody : (beforeEnd (t :: tail)).1 = t :: tail := by
    simpa [beforeEnd_fst] using beforeEnd_append hstmt.ne_eof []
  rw [parse, hbody, List.length_cons, topLevel_of_ok (List.cons_ne_nil _ _) halone,
    topLevel_nil] at herror
  cases herror

/-- Where a declaration that nests too deeply is skipped up to a program, the parse is that of the
program with one error before. -/
theorem parse_of_tooDeep {limit : Nat} {front second tail : List Token} {t : Token}
    (hfront : ∀ t ∈ front, t.kind ≠ .eof) (hsome : front ++ (beforeEnd second).1 ≠ [])
    (hrun : declaration (expression limit) (statement limit) ⟨front ++ (beforeEnd second).1, []⟩ =
      .error .tooDeep ⟨t :: tail, []⟩)
    (hskip : skipStatement 0 (front ++ (beforeEnd second).1) = (beforeEnd second).1) :
    parse limit (front ++ second) =
      ⟨(parse limit second).statements, ⟨t, .nesting⟩ :: (parse limit second).errors⟩ := by
  have hle : (beforeEnd second).1.length ≤ (front ++ (beforeEnd second).1).length := by
    rw [List.length_append]
    omega
  have htop := calc
    topLevel limit (front ++ (beforeEnd second).1).length ⟨front ++ (beforeEnd second).1, []⟩
      = topLevel limit ((front ++ (beforeEnd second).1).length + 1)
          ⟨front ++ (beforeEnd second).1, []⟩ :=
        topLevel_count limit (Nat.le_refl _) (Nat.le_succ _)
    _ = topLevel limit (front ++ (beforeEnd second).1).length
          ⟨(beforeEnd second).1, [⟨t :: tail, .nesting⟩]⟩ := by
        rw [topLevel_of_tooDeep hsome hrun, hskip]
    _ = topLevel limit (beforeEnd second).1.length
          ⟨(beforeEnd second).1, [⟨t :: tail, .nesting⟩]⟩ :=
        topLevel_count limit hle (Nat.le_refl _)
  exact @parse_of_topLevel limit front second [] t _ hfront rfl htop

end Parser

open Lox.Parser

/-- A declaration that nests too deeply costs one error at one of its own tokens, and is skipped as
a whole if it has no `else` outside of braces. If it has one, parsing goes on in front of the first,
which costs another error. -/
theorem deep_declaration_is_skipped_up_to_else (limit : Nat) {declared rest : List Token}
    {tree : Node} (hstmt : Stmt .language .declaration declared tree)
    (hdeep : ∃ error ∈ (parse limit declared).errors, error.complaint = .nesting)
    (hrest : Stops [.elseWord] rest) :
    ∃ left error, left <:+ declared ∧ error.token ∈ declared ∧ error.complaint = .nesting ∧
      parse limit (declared ++ rest) =
        ⟨(parse limit (left ++ rest)).statements, error :: (parse limit (left ++ rest)).errors⟩ ∧
      (tree.hasElse = false → left = []) ∧
      (tree.hasElse = true → ∃ otherwise again others, left.head? = some otherwise ∧
        otherwise.kind = .elseWord ∧
        (parse limit (left ++ rest)).errors = again :: others ∧ again.token = otherwise) := by
  obtain ⟨left, hleft⟩ := exists_leavesOver hstmt
  obtain ⟨t, ht, tail, hrun⟩ := stops_of_nesting hstmt hdeep (stops_beforeEnd hrest)
  refine ⟨left, ⟨t, .nesting⟩, hleft.suffix, ht, rfl, ?_, hleft.whole, fun helse => ?_⟩
  · obtain ⟨taken, rfl⟩ := hleft.suffix
    have hend := List.forall_mem_append.1 hstmt.ne_eof
    have hbody := beforeEnd_append hend.2 rest
    have hskip := hleft.skip (beforeEnd rest).1
    have hsome : taken ++ (left ++ (beforeEnd rest).1) ≠ [] := by
      obtain ⟨first, others, hdeclared, -⟩ := hstmt.begins
      rw [← List.append_assoc, hdeclared]
      exact List.cons_ne_nil _ _
    rw [List.append_assoc, ← hbody] at hrun hskip
    rw [← hbody] at hsome
    rw [List.append_assoc]
    exact parse_of_tooDeep hend.1 hsome hrun hskip
  · cases left with
    | nil => exact absurd (hleft.cut helse) nofun
    | cons otherwise left =>
      have hkind : otherwise.kind = .elseWord := by simpa [beginsWith] using hleft.cut helse
      obtain ⟨again, others, herrors, htoken⟩ := parse_of_else limit hkind (left ++ rest)
      exact ⟨otherwise, again, others, rfl, hkind, herrors, htoken⟩

/-- A single declaration that is parsed without errors is one of the grammar. -/
theorem stmt_of_parse {limit : Nat} {tokens : List Token} {tree : Node}
    (hend : ∀ t ∈ tokens, t.kind ≠ .eof) (hparse : parse limit tokens = ⟨[tree], []⟩) :
    Stmt .language .declaration tokens tree := by
  have hderives := derives_of_parse (congrArg Parse.errors hparse)
  rw [hparse, List.takeWhile_eq_self_iff.2 (by simpa using hend)] at hderives
  obtain ⟨parts, hparts, htokens, htrees⟩ := hderives
  obtain ⟨part, rfl, rfl⟩ := List.map_eq_singleton_iff.1 htrees.symm
  rw [partTokens_cons, partTokens_nil, List.append_nil] at htokens
  rw [htokens]
  exact hparts part List.mem_cons_self

def nameToken : Token :=
  ⟨.identifier, .str "a", .null, 1⟩

def minusToken : Token :=
  ⟨.minus, .str "-", .null, 1⟩

/-- The tokens of `(a)`. -/
def conditionTokens : List Token :=
  [⟨.leftParen, .str "(", .null, 1⟩, nameToken, ⟨.rightParen, .str ")", .null, 1⟩]

/-- The tokens of `--a;`. -/
def negationsTokens : List Token :=
  [minusToken, minusToken, nameToken, semicolonToken]

def negationsTree : Node :=
  .exprStmt (.unary (.token minusToken) (.unary (.token minusToken) (.varRef (.token nameToken))))

/-- The tokens of `while (a) --a;`. -/
def loopTokens : List Token :=
  ⟨.whileWord, .str "while", .null, 1⟩ :: (conditionTokens ++ negationsTokens)

/-- The tokens of `if (a) a; else --a;`. -/
def conditionalTokens : List Token :=
  ⟨.ifWord, .str "if", .null, 1⟩ :: (conditionTokens ++ [nameToken, semicolonToken,
    ⟨.elseWord, .str "else", .null, 1⟩] ++ negationsTokens)

theorem deep_loop_is_skipped : ∃ error, error.token ∈ loopTokens ∧ error.complaint = .nesting ∧
    parse 5 (loopTokens ++ printName) =
      ⟨(parse 5 printName).statements, error :: (parse 5 printName).errors⟩ := by
  have hparse : parse 9 loopTokens =
      ⟨[.whileStmt (.varRef (.token nameToken)) negationsTree], []⟩ := rfl
  obtain ⟨left, error, -, htoken, hcomplaint, hskip, hwhole, -⟩ :=
    deep_declaration_is_skipped_up_to_else 5 (stmt_of_parse (by decide) hparse)
      (by decide +kernel) (stops_cons (by decide) : Stops [.elseWord] printName)
  obtain rfl := hwhole rfl
  exact ⟨error, htoken, hcomplaint, hskip⟩

/-- An `else` that belongs to a declaration skipped before it is an error of its own. -/
theorem deep_else_is_left_over :
    ¬∀ limit declared rest tree, Stmt .language .declaration declared tree →
      (∃ error ∈ (parse limit declared).errors, error.complaint = .nesting) →
      Stops [.elseWord] rest →
      ∃ error, error.complaint = .nesting ∧ parse limit (declared ++ rest) =
        ⟨(parse limit rest).statements, error :: (parse limit rest).errors⟩ := by
  intro hclaim
  have hparse : parse 9 conditionalTokens = ⟨[.ifStmt (.varRef (.token nameToken))
      (.exprStmt (.varRef (.token nameToken))) negationsTree], []⟩ := rfl
  obtain ⟨error, -, hskip⟩ := hclaim 5 conditionalTokens [] _ (stmt_of_parse (by decide) hparse)
    (by decide +kernel) stops_nil
  have hlength : (parse 5 (conditionalTokens ++ [])).errors.length = 1 :=
    congrArg (·.errors.length) hskip
  exact absurd hlength (by decide +kernel)

end Lox
