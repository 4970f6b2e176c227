import Lox.Proofs.Grammar.Nearest
import Lox.Proofs.Lookahead.Statement

/-!
# The first error

The first error of a program stands at the first token that cannot belong to any program, as far as
the rules of the grammar go: what comes before it can be completed to a program, and what comes up to
it and includes it cannot. Two errors are apart from that. The target of an assignment is checked
when its value has been parsed already, and the limit of nesting is no matter of the grammar.

That the tokens before the error can be completed is known from how the parser looks ahead. That the
token itself cannot be accepted follows from two facts: the parser would stop there whatever came
after, and on what the rules derive it stops for no other reason than the two that are set apart.
-/

namespace Lox

open Lox.Computation Grammar

namespace Parser

/-! ## What the rules derive is passed -/

/-- A parser without earlier reports comes to some place without a fault, unless the nesting is too
deep or its first fault is the target of an assignment. -/
def Passes {α : Type} (parser : StmtParser α) (tokens rest : List Token) : Prop :=
  (∃ a, parser ⟨tokens, []⟩ = .ok a ⟨rest, []⟩) ∨
    (∃ left, parser ⟨tokens, []⟩ = .error .tooDeep ⟨left, []⟩) ∨
    ∃ fault, firstFault? (parser ⟨tokens, []⟩) = some fault ∧ fault.complaint = .assignmentTarget

section Passes

variable {α β : Type} {parser : StmtParser α} {tokens middle rest : List Token}

theorem Passes.of_ok {a : α} (h : parser ⟨tokens, []⟩ = .ok a ⟨rest, []⟩) :
    Passes parser tokens rest :=
  .inl ⟨a, h⟩

theorem Passes.of_eq {next : StmtParser α}
    (heq : parser ⟨tokens, []⟩ = next ⟨middle, []⟩) (h : Passes next middle rest) :
    Passes parser tokens rest := by
  rwa [Passes, heq]

theorem passes_tooDeep : Passes (throw .tooDeep : StmtParser α) tokens rest :=
  .inr (.inl ⟨tokens, rfl⟩)

theorem Passes.bind {next : α → StmtParser β} (hfirst : Passes parser tokens middle)
    (hnext : ∀ a, Passes (next a) middle rest)
    (hkeeps : ∀ a start, Keeps (Forward start) (next a)) :
    Passes (parser >>= next) tokens rest := by
  rcases hfirst with ⟨a, hok⟩ | ⟨left, hdeep⟩ | ⟨fault, hfault, htarget⟩
  · rw [Passes, bind_of_ok hok]
    exact hnext a
  · exact .inr (.inl ⟨left, bind_of_error hdeep next⟩)
  · exact .inr (.inr ⟨fault, firstFault?_bind hkeeps hfault, htarget⟩)

theorem Passes.map (h : Passes parser tokens rest) (f : α → β) :
    Passes (parser >>= fun a => pure (f a)) tokens rest :=
  h.bind (fun a => .of_ok (a := f a) rfl) fun _ _ => keeps_pure _

theorem passes_expect {kind : Kind} {t : Token} (hkind : t.kind = kind) (complaint : Complaint) :
    Passes (quietly (expect kind complaint)) (t :: rest) rest :=
  .of_ok (quietly_expect_eq_ok.2 ⟨rfl, hkind, rfl⟩)

theorem Passes.recovering {parser : StmtParser Node} (h : Passes parser tokens rest) :
    Passes (recovering parser) tokens rest := by
  rcases h with ⟨tree, hok⟩ | ⟨left, hdeep⟩ | ⟨fault, hfault, htarget⟩
  · exact .of_ok (recovering_eq_ok.2 (.inl ⟨tree, hok, rfl⟩))
  · exact .inr (.inl ⟨left, by rw [Parser.recovering, hdeep]⟩)
  · exact .inr (.inr ⟨fault, (firstFault?_recovering parser _).trans hfault, htarget⟩)

end Passes

/-! ## Expressions -/

section Expression

variable {limit : Nat} {tokens rest : List Token}

theorem passes_leaf {t : Token} {leaf : Node} (hleaf : leaf? t = some leaf) (limit : Nat) :
    Passes (quietly (unary limit)) (t :: rest) rest := by
  cases limit with
  | zero => exact passes_tooDeep
  | succ limit => exact .of_ok (quietly_of_ok (unary_of_leaf hleaf rest) _)

theorem passes_grouping {opening closing : Token} (hopening : opening.kind = .leftParen)
    (hclosing : closing.kind = .rightParen)
    (hinner : ∀ limit rest, Stops (goesOn .assignment) rest →
      Passes (quietly (assignment limit)) (tokens ++ rest) rest) (limit : Nat) :
    Passes (quietly (unary limit)) (opening :: (tokens ++ closing :: rest)) rest := by
  cases limit with
  | zero => exact passes_tooDeep
  | succ limit =>
    have hstops : Stops (goesOn .assignment) (closing :: rest) :=
      stops_cons (by rw [hclosing]; decide)
    refine .of_eq (quietly_of_eq (unary_of_paren hopening _) []) ?_
    simp only [quietly_bind, quietly_pure]
    refine (hinner limit _ hstops).bind (fun inner => ?_) fun _ _ =>
      (keeps_forward_expect _ _).bind fun _ => keeps_pure _
    exact (passes_expect hclosing _).map fun _ => Node.grouping inner

theorem passes_unary {operator : Token} (hoperator : operator.kind ∈ [.bang, .minus])
    (hoperand : ∀ limit, Passes (quietly (unary limit)) tokens rest) (limit : Nat) :
    Passes (quietly (unary limit)) (operator :: tokens) rest := by
  cases limit with
  | zero => exact passes_tooDeep
  | succ limit =>
    have htest : isUnaryOperator operator.kind = true := by
      simpa [isUnaryOperator] using hoperator
    refine .of_eq (quietly_of_eq (unary_of_operator htest _) []) ?_
    rw [quietly_bind]
    exact (hoperand limit).map (Node.unary (.token operator))

theorem passes_chainTail {level : Level} {operand : ExprParser Node}
    (hsuffix : ∀ base, Keeps (· <:+ base) operand) {operations : List Operation}
    (hoperators : ∀ operation ∈ operations, operation.1.kind ∈ level.operators)
    (hoperands : ∀ operation ∈ operations, ∀ rest, Stops (goesOn level.operand) rest →
      Passes (quietly operand) (operation.2.tokens ++ rest) rest)
    (hstops : Stops (goesOn (.chain level)) rest) (left : Node) :
    Passes (quietly (chainTail (levelTest level) operand left)) (operationTokens operations ++ rest)
      rest := by
  induction operations generalizing left with
  | nil =>
    have hstop : beginsWith (levelTest level) rest = false :=
      hstops.beginsWith_eq_false fun kind hkind =>
        operators_subset_goesOn level ((levelTest_iff level kind).1 hkind)
    exact .of_ok (quietly_of_ok (chainTail_of_stop left hstop) _)
  | cons operation operations ih =>
    rw [List.forall_mem_cons] at hoperators hoperands
    have hafter : Stops (goesOn level.operand) (operationTokens operations ++ rest) :=
      stops_operationTokens
        (fun operation hmem => not_mem_goesOn_operand level _ (hoperators.2 operation hmem))
        (hstops.mono (goesOn_operand_subset level))
    have htest : levelTest level operation.1.kind = true := (levelTest_iff level _).2 hoperators.1
    rw [operationTokens_cons, List.cons_append, List.append_assoc]
    refine .of_eq (quietly_of_eq (chainTail_cons hsuffix left _ htest) []) ?_
    rw [quietly_bind]
    refine (hoperands.1 _ hafter).bind (fun right => ih hoperators.2 hoperands.2 _) fun _ _ => ?_
    exact keeps_forward_quietly fun base => keeps_suffix_chainTail hsuffix _ base

theorem keeps_suffix_rankParser (limit : Nat) (rank : Rank) (base : List Token) :
    Keeps (· <:+ base) (rankParser limit rank) := by
  have hboth : Keeps (· <:+ base) (assignment limit) ∧ Keeps (· <:+ base) (unary limit) :=
    keeps_suffix_assignment_unary limit
  have hfactor : Keeps (· <:+ base) (chain isFactorOperator (unary limit)) :=
    keeps_suffix_chain hboth.2
  have hterm : Keeps (· <:+ base) (chain isTermOperator (chain isFactorOperator (unary limit))) :=
    keeps_suffix_chain hfactor
  have hcomparison : Keeps (· <:+ base) (chain isComparisonOperator
      (chain isTermOperator (chain isFactorOperator (unary limit)))) :=
    keeps_suffix_chain hterm
  cases rank with
  | assignment => exact hboth.1
  | unary | primary => exact hboth.2
  | chain level =>
    cases level with
    | equality => exact keeps_suffix_chain hcomparison
    | comparison => exact hcomparison
    | term => exact hterm
    | factor => exact hfactor

theorem passes_chain {level : Level} {operations : List Operation}
    (hfirst : ∀ rest, Stops (goesOn level.operand) rest →
      Passes (quietly (rankParser limit level.operand)) (tokens ++ rest) rest)
    (hoperators : ∀ operation ∈ operations, operation.1.kind ∈ level.operators)
    (hoperands : ∀ operation ∈ operations, ∀ rest, Stops (goesOn level.operand) rest →
      Passes (quietly (rankParser limit level.operand)) (operation.2.tokens ++ rest) rest)
    (hstops : Stops (goesOn (.chain level)) rest) :
    Passes (quietly (rankParser limit (.chain level))) (tokens ++ operationTokens operations ++ rest)
      rest := by
  have hsuffix := keeps_suffix_rankParser limit level.operand
  have hafter : Stops (goesOn level.operand) (operationTokens operations ++ rest) :=
    stops_operationTokens
      (fun operation hmem => not_mem_goesOn_operand level _ (hoperators operation hmem))
      (hstops.mono (goesOn_operand_subset level))
  rw [rankParser_chain, chain_eq_bind, quietly_bind, List.append_assoc]
  refine (hfirst _ hafter).bind
    (fun left => passes_chainTail hsuffix hoperators hoperands hstops left) fun left _ => ?_
  exact keeps_forward_quietly fun base => keeps_suffix_chainTail hsuffix left base

theorem passes_assign {before after : List Token} {equal : Token} (hequal : equal.kind = .equal)
    (htarget : ∀ limit rest, Stops (goesOn (.chain .equality)) rest →
      Passes (quietly (equality (unary limit))) (before ++ rest) rest)
    (hvalue : ∀ limit, Passes (quietly (assignment limit)) (after ++ rest) rest) (limit : Nat) :
    Passes (quietly (assignment limit)) (before ++ equal :: (after ++ rest)) rest := by
  cases limit with
  | zero => exact passes_tooDeep
  | succ limit =>
    rw [assignment_eq_bind, quietly_bind]
    refine (htarget limit _ (stops_cons (by rw [hequal]; decide))).bind (fun target => ?_)
      fun target _ => keeps_forward_quietly fun base => keeps_suffix_assignmentTail target base
    refine .of_eq (quietly_of_eq (assignmentTail_of_equal target hequal _) []) ?_
    rw [quietly_bind]
    refine (hvalue limit).bind (fun value => ?_)
      fun value _ => keeps_forward_quietly fun base => keeps_suffix_assignTo target value _
    cases target with
    | varRef name => exact .of_ok rfl
    | _ => exact .inr (.inr ⟨⟨_, .assignmentTarget⟩, rfl, rfl⟩)

theorem passes_equality (hstops : Stops (goesOn .assignment) rest)
    (hequality : ∀ limit, Passes (quietly (equality (unary limit))) tokens rest) (limit : Nat) :
    Passes (quietly (assignment limit)) tokens rest := by
  cases limit with
  | zero => exact passes_tooDeep
  | succ limit =>
    have hstop : beginsWith (· = .equal) rest = false :=
      hstops.beginsWith_eq_false fun kind htest => by
        rw [of_decide_eq_true htest]
        exact List.mem_cons_self
    rw [assignment_eq_bind, quietly_bind]
    refine (hequality limit).bind (fun target => ?_)
      fun target _ => keeps_forward_quietly fun base => keeps_suffix_assignmentTail target base
    exact .of_ok (quietly_of_ok (assignmentTail_of_stop target hstop) _)

/-- What the rules derive as an expression is passed, up to something that cannot go on with it. -/
theorem passes_of_expr {rank : Rank} {tree : Node} (hexpr : Expr .documented rank tokens tree) :
    ∀ limit rest, Stops (goesOn rank) rest →
      Passes (quietly (rankParser limit rank)) (tokens ++ rest) rest := by
  induction hexpr with
  | @literal t hkind =>
    intro limit rest _
    have hleaf : leaf? t = some (.literal (Value.ofJson t.literal)) := by
      rcases hkind with hkind | hkind <;> simp [leaf?, hkind]
    exact passes_leaf hleaf limit
  | truth hkind | falsity hkind | nil hkind =>
    intro limit rest _
    exact passes_leaf (by simp [leaf?, hkind]; rfl) limit
  | name hkind =>
    intro limit rest _
    exact passes_leaf (by simp [leaf?, hkind]; rfl) limit
  | grouping hopening hclosing _ ih =>
    intro limit rest _
    rw [List.cons_append, List.append_assoc]
    exact passes_grouping hopening hclosing ih limit
  | unary hoperator _ ih =>
    intro limit rest hstops
    exact passes_unary hoperator (fun limit => ih limit rest hstops) limit
  | primary _ ih => exact ih
  | chain level _ hoperators _ ihfirst ihoperands =>
    intro limit rest hstops
    exact passes_chain (ihfirst limit) hoperators
      (fun operation hmem => ihoperands operation hmem limit) hstops
  | assign _ _ hequal _ ihtarget ihvalue =>
    intro limit rest hstops
    rw [List.append_assoc, List.cons_append]
    exact passes_assign hequal ihtarget (fun limit => ihvalue limit rest hstops) limit
  | equality _ ih =>
    intro limit rest hstops
    exact passes_equality hstops
      (fun limit => ih limit rest (hstops.mono (List.subset_cons_self _ _))) limit

end Expression

/-! ## Statements -/

section Statement

variable {limit : Nat} {tokens rest : List Token}

theorem passes_expression_expect {value : Node} {kind : Kind} {t : Token} {complaint : Complaint}
    (hvalue : Expr .nearest .assignment tokens value) (hkind : t.kind = kind)
    (hstops : kind ∉ goesOn .assignment) (build : Node → Node) :
    Passes (do
      let value ← quietly (expression limit)
      let _ ← quietly (expect kind complaint)
      return build value) (tokens ++ t :: rest) rest := by
  have hvalue := passes_of_expr (hvalue.of_target_eq SideConditions.nearest_target.symm) limit
    (t :: rest) (stops_cons (hkind ▸ hstops))
  refine hvalue.bind (fun value => ?_) fun _ _ =>
    (keeps_forward_expect _ _).bind fun _ => keeps_pure _
  exact (passes_expect hkind complaint).map fun _ => build value

theorem passes_condition {opening closing : Token} {inner : List Token} {condition : Node}
    {next : Node → StmtParser Node} (hopening : opening.kind = .leftParen)
    (hclosing : closing.kind = .rightParen)
    (hcondition : Expr .nearest .assignment inner condition) (opens closes : Complaint)
    (hkeeps : ∀ condition start, Keeps (Forward start) (next condition))
    (hnext : ∀ condition, Passes (next condition) tokens rest) :
    Passes (do
      let _ ← quietly (expect .leftParen opens)
      let condition ← quietly (expression limit)
      let _ ← quietly (expect .rightParen closes)
      next condition) (opening :: (inner ++ closing :: tokens)) rest := by
  have hinner := passes_of_expr (hcondition.of_target_eq SideConditions.nearest_target.symm) limit
    (closing :: tokens) (stops_cons (by rw [hclosing]; decide))
  have hexpression (start : Progress) : Keeps (Forward start) (quietly (expression limit)) :=
    keeps_forward_quietly fun _ => keeps_suffix_expression limit
  refine (passes_expect hopening opens).bind (fun _ => ?_) fun _ start => ?_
  · refine hinner.bind (fun condition => ?_) fun condition start =>
      (keeps_forward_expect _ _).bind fun _ => hkeeps condition start
    exact (passes_expect hclosing closes).bind (fun _ => hnext condition) fun _ => hkeeps condition
  · exact (hexpression start).bind fun condition =>
      (keeps_forward_expect _ _).bind fun _ => hkeeps condition start

theorem passes_print {keyword semicolon : Token} {value : Node}
    (hkeyword : keyword.kind = .printWord) (hsemicolon : semicolon.kind = .semicolon)
    (hvalue : Expr .nearest .assignment tokens value) :
    Passes (statement (limit + 1)) (keyword :: (tokens ++ semicolon :: rest)) rest :=
  .of_eq (statement_of_print hkeyword _ [])
    (passes_expression_expect hvalue hsemicolon (by decide) Node.printStmt)

/-- The declarations of a block or a program, up to something that is no declaration. -/
theorem passes_declarationLoop {parts : List Part} {closing : Token}
    (hparts : ∀ part ∈ parts, Stmt .nearest .declaration part.tokens part.tree)
    (hpasses : ∀ part ∈ parts, ∀ rest, Settled part.tree rest →
      Passes (clauseParser limit .declaration) (part.tokens ++ rest) rest)
    (hclosing : closing.kind = .rightBrace) :
    Passes (declarationLoop limit) (partTokens parts ++ closing :: rest) (closing :: rest) := by
  induction parts with
  | nil => exact .of_ok (declarationLoop_of_stop (by simp [beginsWith, hclosing]))
  | cons part parts ih =>
    rw [List.forall_mem_cons] at hparts hpasses
    have hsettled : Settled part.tree (partTokens parts ++ closing :: rest) := fun _ =>
      stops_else_partTokens hparts.2 (stops_cons (by simp [hclosing]))
    obtain ⟨t, tail, htokens, hkind⟩ := hparts.1.begins
    have hbrace : t.kind ≠ .rightBrace := by
      intro hbrace
      rw [hbrace] at hkind
      exact absurd hkind (by decide)
    have hdeclaration := (hpasses.1 _ hsettled).recovering
    rw [partTokens_cons, List.append_assoc]
    rw [htokens, List.cons_append] at hdeclaration ⊢
    refine .of_eq (declarationLoop_of_next hbrace) ?_
    refine hdeclaration.bind (fun first => ?_)
      fun _ start => (keeps_forward_declarationLoop limit start).bind fun _ => keeps_pure _
    exact (ih hparts.2 hpasses.2).map (first.toList ++ ·)

theorem passes_block {opening closing : Token} {parts : List Part}
    (hopening : opening.kind = .leftBrace) (hclosing : closing.kind = .rightBrace)
    (hparts : ∀ part ∈ parts, Stmt .nearest .declaration part.tokens part.tree)
    (hpasses : ∀ part ∈ parts, ∀ rest, Settled part.tree rest →
      Passes (clauseParser limit .declaration) (part.tokens ++ rest) rest) :
    Passes (statement (limit + 1)) (opening :: (partTokens parts ++ closing :: rest)) rest := by
  refine .of_eq (statement_of_block hopening _ []) ?_
  refine (passes_declarationLoop hparts hpasses hclosing).bind (fun statements => ?_)
    fun _ _ => (keeps_forward_expect _ _).bind fun _ => keeps_pure _
  exact (passes_expect hclosing _).map fun _ => Node.block statements

theorem keeps_forward_branches (limit : Nat) (condition : Node) (start : Progress) :
    Keeps (Forward start) (statement limit >>= elseTail limit condition) :=
  (keeps_forward_statement limit).bind fun thenBranch =>
    (predicts_elseTail (predicts_statement limit) condition thenBranch).keeps start

theorem passes_ifThen {keyword opening closing : Token} {inner body : List Token} {condition : Node}
    (hkeyword : keyword.kind = .ifWord) (hopening : opening.kind = .leftParen)
    (hclosing : closing.kind = .rightParen) (hcondition : Expr .nearest .assignment inner condition)
    (hstops : Stops [.elseWord] rest) (hbody : Passes (statement limit) (body ++ rest) rest) :
    Passes (statement (limit + 1)) (keyword :: opening :: (inner ++ closing :: (body ++ rest)))
      rest := by
  refine .of_eq (statement_of_if hkeyword _ []) ?_
  refine passes_condition hopening hclosing hcondition _ _ (keeps_forward_branches limit)
    fun condition => ?_
  refine hbody.bind (fun thenBranch => .of_ok (elseTail_of_stop condition thenBranch ?_))
    fun thenBranch => (predicts_elseTail (predicts_statement limit) condition thenBranch).keeps
  intro helse
  obtain ⟨t, tail, hrest, hkind⟩ := head?_kind_eq_some.1 helse
  exact hstops t (by rw [show rest = t :: tail from hrest]; rfl) (by simp [hkind])

theorem passes_ifElse {keyword opening closing otherwise : Token} {inner body final : List Token}
    {condition : Node} (hkeyword : keyword.kind = .ifWord) (hopening : opening.kind = .leftParen)
    (hclosing : closing.kind = .rightParen) (hotherwise : otherwise.kind = .elseWord)
    (hcondition : Expr .nearest .assignment inner condition)
    (hbody : Passes (statement limit) (body ++ otherwise :: (final ++ rest))
      (otherwise :: (final ++ rest)))
    (hfinal : Passes (statement limit) (final ++ rest) rest) :
    Passes (statement (limit + 1))
      (keyword :: opening :: (inner ++ closing :: (body ++ otherwise :: (final ++ rest)))) rest := by
  refine .of_eq (statement_of_if hkeyword _ []) ?_
  refine passes_condition hopening hclosing hcondition _ _ (keeps_forward_branches limit)
    fun condition => ?_
  refine hbody.bind (fun thenBranch => ?_)
    fun thenBranch => (predicts_elseTail (predicts_statement limit) condition thenBranch).keeps
  refine .of_eq (elseTail_of_else condition thenBranch hotherwise _ []) ?_
  exact hfinal.map (Node.ifStmt condition thenBranch)

theorem passes_while {keyword opening closing : Token} {inner body : List Token} {condition : Node}
    (hkeyword : keyword.kind = .whileWord) (hopening : opening.kind = .leftParen)
    (hclosing : closing.kind = .rightParen) (hcondition : Expr .nearest .assignment inner condition)
    (hbody : Passes (statement limit) (body ++ rest) rest) :
    Passes (statement (limit + 1)) (keyword :: opening :: (inner ++ closing :: (body ++ rest)))
      rest := by
  refine .of_eq (statement_of_while hkeyword _ []) ?_
  refine passes_condition hopening hclosing hcondition _ _
    (fun _ _ => (keeps_forward_statement limit).bind fun _ => keeps_pure _) fun condition => ?_
  exact hbody.map (Node.whileStmt condition)

theorem passes_expressionStatement {semicolon : Token} {value : Node}
    (hsemicolon : semicolon.kind = .semicolon) (hvalue : Expr .nearest .assignment tokens value) :
    Passes (statement (limit + 1)) (tokens ++ semicolon :: rest) rest := by
  obtain ⟨t, tail, rfl, hkind⟩ := hvalue.begins
  have hother : ∀ kind ∈ [Kind.printWord, .leftBrace, .ifWord, .whileWord],
      (t :: tail ++ semicolon :: rest).head?.map (·.kind) ≠ some kind := by
    intro kind hmem hnext
    obtain rfl : t.kind = kind := Option.some.inj hnext
    generalize t.kind = kind at hmem hkind
    revert hmem hkind
    cases kind <;> decide
  refine .of_eq (statement_of_other hother) ?_
  exact passes_expression_expect hvalue hsemicolon (by decide) Node.exprStmt

theorem passes_declare {keyword name semicolon : Token} (hkeyword : keyword.kind = .varWord)
    (hname : name.kind = .identifier) (hsemicolon : semicolon.kind = .semicolon) :
    Passes (clauseParser limit .declaration) (keyword :: name :: semicolon :: rest) rest := by
  refine .of_eq (clauseParser_of_var hkeyword _ []) ?_
  refine (passes_expect hname _).bind (fun name => ?_)
    fun name => (predicts_initializerTail limit .next name).keeps
  refine .of_eq (initializerTail_of_stop name (by simp [hsemicolon])) ?_
  exact (passes_expect hsemicolon _).map fun _ => Node.varDecl (.token name) .absent

theorem passes_declareAs {keyword name equal semicolon : Token} {value : Node}
    (hkeyword : keyword.kind = .varWord) (hname : name.kind = .identifier)
    (hequal : equal.kind = .equal) (hsemicolon : semicolon.kind = .semicolon)
    (hvalue : Expr .nearest .assignment tokens value) :
    Passes (clauseParser limit .declaration)
      (keyword :: name :: equal :: (tokens ++ semicolon :: rest)) rest := by
  refine .of_eq (clauseParser_of_var hkeyword _ []) ?_
  refine (passes_expect hname _).bind (fun name => ?_)
    fun name => (predicts_initializerTail limit .next name).keeps
  refine .of_eq (initializerTail_of_equal name hequal _ []) ?_
  exact passes_expression_expect hvalue hsemicolon (by decide) (Node.varDecl (.token name))

/-- What the rules derive is passed, if no `else` comes next that would belong to it. -/
theorem passes_of_stmt {clause : Clause} {tree : Node} (hstmt : Stmt .nearest clause tokens tree) :
    ∀ limit rest, Settled tree rest → Passes (clauseParser limit clause) (tokens ++ rest) rest := by
  induction hstmt with
  | print hkeyword hsemicolon hvalue =>
    intro limit rest _
    cases limit with
    | zero => exact passes_tooDeep
    | succ limit =>
      rw [List.cons_append, List.append_assoc]
      exact passes_print hkeyword hsemicolon hvalue
  | block hopening hclosing hparts ih =>
    intro limit rest _
    cases limit with
    | zero => exact passes_tooDeep
    | succ limit =>
      rw [List.cons_append, List.append_assoc]
      exact passes_block hopening hclosing hparts fun part hmem => ih part hmem limit
  | ifThen hkeyword hopening hclosing hcondition _ ih =>
    intro limit rest hsettled
    cases limit with
    | zero => exact passes_tooDeep
    | succ limit =>
      have hstops : Stops [.elseWord] rest := hsettled rfl
      rw [List.cons_append, List.cons_append, List.append_assoc, List.cons_append]
      exact passes_ifThen hkeyword hopening hclosing hcondition hstops
        (ih limit rest fun _ => hstops)
  | ifElse hkeyword hopening hclosing hotherwise hcondition _ hbefore helse ihthen ihelse =>
    intro limit rest hsettled
    cases limit with
    | zero => exact passes_tooDeep
    | succ limit =>
      rw [SideConditions.nearest_beforeElse] at hbefore
      rw [List.cons_append, List.cons_append, List.append_assoc, List.cons_append,
        List.append_assoc, List.cons_append]
      refine passes_ifElse hkeyword hopening hclosing hotherwise hcondition
        (ihthen limit _ (settled_of_closed hbefore)) (ihelse limit rest ?_)
      intro hopen
      exact hsettled (by rwa [Node.endsOpen_ifElse helse.ne_absent])
  | whileLoop hkeyword hopening hclosing hcondition _ ih =>
    intro limit rest hsettled
    cases limit with
    | zero => exact passes_tooDeep
    | succ limit =>
      rw [List.cons_append, List.cons_append, List.append_assoc, List.cons_append]
      exact passes_while hkeyword hopening hclosing hcondition (ih limit rest hsettled)
  | expression hsemicolon hvalue =>
    intro limit rest _
    cases limit with
    | zero => exact passes_tooDeep
    | succ limit =>
      rw [List.append_assoc]
      exact passes_expressionStatement hsemicolon hvalue
  | declare hkeyword hname hsemicolon =>
    intro limit rest _
    exact passes_declare hkeyword hname hsemicolon
  | declareAs hkeyword hname hequal hsemicolon hvalue =>
    intro limit rest _
    rw [List.cons_append, List.cons_append, List.cons_append, List.append_assoc]
    exact passes_declareAs hkeyword hname hequal hsemicolon hvalue
  | statement hstmt ih =>
    intro limit rest hsettled
    obtain ⟨t, tail, htokens, hkind⟩ := hstmt.begins
    refine .of_eq (clauseParser_of_other ?_) (ih limit rest hsettled)
    rw [htokens]
    intro hvar
    rw [show t.kind = .varWord from Option.some.inj hvar] at hkind
    exact absurd hkind (by decide)

end Statement

/-! ## Programs and single expressions -/

section Program

variable {limit : Nat} {tokens : List Token}

theorem programFault?_of_parts {parts : List Part} {fault : Fault}
    (hparts : ∀ part ∈ parts, Stmt .nearest .declaration part.tokens part.tree)
    (hfault : programFault? limit (partTokens parts) = some fault) :
    fault.complaint = .assignmentTarget ∨ fault.complaint = .nesting := by
  induction parts with
  | nil => cases hfault
  | cons part parts ih =>
    rw [List.forall_mem_cons] at hparts
    have hsettled : Settled part.tree (partTokens parts) := fun _ => by
      simpa using stops_else_partTokens hparts.2 stops_nil
    have hne : part.tokens ++ partTokens parts ≠ [] := by
      obtain ⟨t, tail, htokens, -⟩ := hparts.1.begins
      simp [htokens]
    rw [partTokens_cons] at hfault
    rcases (passes_of_stmt hparts.1 limit _ hsettled).recovering with
      ⟨result, hok⟩ | ⟨left, hdeep⟩ | ⟨first, hfirst, htarget⟩
    · rw [programFault?_of_ok hne hok] at hfault
      exact ih hparts.2 hfault
    · rw [programFault?_of_tooDeep hne hdeep] at hfault
      cases hfault
      exact .inr rfl
    · rw [programFault?_of_fault hne hfirst] at hfault
      cases hfault
      exact .inl htarget

/-- A program by the rules has no other first fault than the two that are set apart. -/
theorem programFault?_of_mem {fault : Fault} (hmem : tokens ∈ programWords)
    (hfault : programFault? limit tokens = some fault) :
    fault.complaint = .assignmentTarget ∨ fault.complaint = .nesting := by
  obtain ⟨statements, parts, hparts, rfl, -⟩ := hmem
  obtain ⟨parts', hparts', htokens⟩ := exists_parts fun part hmem => (hparts part hmem).nearest
  rw [← htokens] at hfault
  exact programFault?_of_parts hparts' hfault

theorem expression_of_mem (hmem : tokens ∈ exprWords .assignment) (limit : Nat) :
    Passes (quietly (expression limit)) tokens [] := by
  obtain ⟨tree, hexpr⟩ := hmem
  have hpasses := passes_of_expr hexpr limit [] stops_nil
  rwa [List.append_nil] at hpasses

end Program

end Parser

open Lox.Parser

/-- An error stands at the first token that makes it impossible to go on to something in a language:
what comes before it is a beginning, and together with it no longer is. At the end, what comes before
it is not in the language. -/
def Offends (words : Language Token) (tokens : List Token) (error : ParseError) : Prop :=
  ∃ before after, (beforeEnd tokens).1 = before ++ after ∧
    error.token = after.headD (beforeEnd tokens).2 ∧ (∃ more, before ++ more ∈ words) ∧
    match after with
    | [] => before ∉ words
    | t :: _ => ∀ more, before ++ t :: more ∉ words

theorem offends_of_fault {words : Language Token} {tokens taken : List Token} {fault : Fault}
    (htokens : (beforeEnd tokens).1 = taken ++ fault.found) (hviable : ∃ more, taken ++ more ∈ words)
    (hstuck : ∀ other, SameNext fault.found other → taken ++ other ∉ words) :
    Offends words tokens (fault.toError (beforeEnd tokens).2) := by
  refine ⟨taken, fault.found, htokens, rfl, hviable, ?_⟩
  cases hfound : fault.found with
  | nil =>
    rw [hfound] at hstuck
    simpa using hstuck [] rfl
  | cons t rest =>
    rw [hfound] at hstuck
    exact fun more => hstuck (t :: more) rfl

theorem offends_of_expression_fault {limit : Nat} {tokens left : List Token} {fault : Fault}
    (hrun : expression limit (beforeEnd tokens).1 = .error (.fault fault) left)
    (htarget : fault.complaint ≠ .assignmentTarget) :
    Offends (exprWords .assignment) tokens (fault.toError (beforeEnd tokens).2) := by
  have hfirst : firstFault? (quietly (expression limit) ⟨(beforeEnd tokens).1, []⟩) = some fault := by
    simp [quietly, hrun, firstFault?, faults]
  obtain ⟨taken, htokens, hviable, hlocal⟩ :=
    ((predicts_expression limit).everywhere _).fault hfirst htarget
  refine offends_of_fault htokens hviable fun other hother hmem => ?_
  have hstop := hlocal other hother
  rcases expression_of_mem hmem limit with ⟨a, hok⟩ | ⟨rest, hdeep⟩ | ⟨first, hother, hcomplaint⟩
  · rw [hok] at hstop
    cases hstop
  · rw [hdeep] at hstop
    cases hstop
  · cases hstop.symm.trans hother
    exact htarget hcomplaint

/-- Something after an expression cannot go on with it. -/
theorem offends_of_expression_rest {limit : Nat} {tokens rest : List Token} {t : Token} {tree : Node}
    (hrun : expression limit (beforeEnd tokens).1 = .ok tree (t :: rest)) :
    Offends (exprWords .assignment) tokens
      (Fault.toError ⟨t :: rest, .endOfExpression⟩ (beforeEnd tokens).2) := by
  have hok : quietly (expression limit) ⟨(beforeEnd tokens).1, []⟩ = .ok tree ⟨t :: rest, []⟩ :=
    quietly_of_ok hrun []
  obtain ⟨taken, htaken, htokens, hlocal⟩ := ((predicts_expression limit).everywhere _).ok hok
  refine offends_of_fault htokens ⟨[], by simpa using htaken⟩ fun other hother hmem => ?_
  have hstop := hlocal other hother
  rcases expression_of_mem hmem limit with ⟨a, hpass⟩ | ⟨left, hdeep⟩ | ⟨first, hfirst, -⟩
  · cases hstop.symm.trans hpass
    cases hother
  · cases hstop.symm.trans hdeep
  · rw [hstop] at hfirst
    cases hfirst

/-- The first error of a program stands at the earliest token that no program could have there, and
so does the error of a single expression, unless it is about the target of an assignment or about
nesting. -/
theorem first_error_earliest (limit : Nat) (tokens : List Token) :
    (∀ error others, (parse limit tokens).errors = error :: others →
      error.complaint ≠ .assignmentTarget → error.complaint ≠ .nesting →
        Offends programWords tokens error) ∧
    ∀ error, parseExpression limit tokens = .error error →
      error.complaint ≠ .assignmentTarget → error.complaint ≠ .nesting →
        Offends (exprWords .assignment) tokens error := by
  refine ⟨fun error others herrors htarget hnesting => ?_, fun error herror htarget hnesting => ?_⟩
  · obtain ⟨fault, hfault, rfl⟩ : ∃ fault, programFault? limit (beforeEnd tokens).1 = some fault ∧
        fault.toError (beforeEnd tokens).2 = error := by
      have hhead := congrArg List.head? herrors
      simpa [parse, programFault?] using hhead
    obtain ⟨taken, htokens, hviable, hlocal⟩ := programFault?_predicted hfault htarget hnesting
    refine offends_of_fault htokens hviable fun other hother hmem => ?_
    rcases programFault?_of_mem hmem (hlocal other hother) with hcomplaint | hcomplaint
    · exact htarget hcomplaint
    · exact hnesting hcomplaint
  · unfold parseExpression at herror
    cases hrun : expression limit (beforeEnd tokens).1 with
    | ok tree rest =>
      cases rest with
      | nil => simp [hrun] at herror
      | cons t rest =>
        simp only [hrun, Except.error.injEq] at herror
        subst herror
        exact offends_of_expression_rest hrun
    | error halt left =>
      cases halt with
      | fault fault =>
        simp only [hrun, Except.error.injEq] at herror
        subst herror
        exact offends_of_expression_fault hrun htarget
      | tooDeep =>
        simp only [hrun, Except.error.injEq] at herror
        subst herror
        exact absurd rfl hnesting

/-- The tokens of `if (a) { print b } else`. -/
def unfinishedPrint : List Token :=
  [⟨.ifWord, .str "if", .null, 1⟩, ⟨.leftParen, .str "(", .null, 1⟩,
    ⟨.identifier, .str "a", .null, 1⟩, ⟨.rightParen, .str ")", .null, 1⟩,
    ⟨.leftBrace, .str "\x7b", .null, 1⟩, ⟨.printWord, .str "print", .null, 2⟩,
    ⟨.identifier, .str "b", .null, 2⟩, ⟨.rightBrace, .str "\x7d", .null, 3⟩,
    ⟨.elseWord, .str "else", .null, 3⟩, Token.endAt 3]

/-- The tokens of `a b`. -/
def twoNames : List Token :=
  [⟨.identifier, .str "a", .null, 1⟩, ⟨.identifier, .str "b", .null, 1⟩, Token.endAt 1]

theorem first_error_unfinishedPrint :
    (∃ error others, (parse 20 unfinishedPrint).errors = error :: others ∧
      error.token.kind = .rightBrace ∧ error.complaint = .semicolonAfterValue ∧
      Offends programWords unfinishedPrint error) ∧
    ∃ error, parseExpression 20 twoNames = .error error ∧ error.complaint = .endOfExpression ∧
      Offends (exprWords .assignment) twoNames error := by
  obtain ⟨hprogram, -⟩ := first_error_earliest 20 unfinishedPrint
  obtain ⟨-, hexpression⟩ := first_error_earliest 20 twoNames
  have hfirst : (parse 20 unfinishedPrint).errors.head?.map
      (fun error => (error.token.kind, error.complaint)) =
        some (.rightBrace, .semicolonAfterValue) := by decide +kernel
  refine ⟨?_, ⟨⟨.identifier, .str "b", .null, 1⟩, .endOfExpression⟩, rfl, rfl,
    hexpression _ rfl (by decide) (by decide)⟩
  cases herrors : (parse 20 unfinishedPrint).errors with
  | nil => simp [herrors] at hfirst
  | cons error others =>
    simp only [herrors, List.head?_cons, Option.map_some, Option.some.injEq, Prod.mk.injEq] at hfirst
    obtain ⟨hkind, hcomplaint⟩ := hfirst
    refine ⟨error, others, rfl, hkind, hcomplaint, hprogram error others herrors ?_ ?_⟩
    · rw [hcomplaint]
      decide
    · rw [hcomplaint]
      decide

end Lox
