import Lox.Proofs.Grammar.Statement

/-!
# Well-formed trees

The parser builds a tree in which every place is filled as its node needs it: operators where
operators belong, with a kind that the node knows; identifiers where names belong; statements, never
declarations, as branches and bodies. What is left open is which tokens are admitted and what holds
of the literals, so that one theorem, `parse_wellFormed`, serves all token lists: broken ones as
well, since a declaration that is recovered from leaves nothing in the tree.
-/

namespace Lox

open Lox.Computation Grammar Lox.Parser

namespace Node

def unaryOperators : List Kind :=
  [.bang, .minus]

def binaryOperators : List Kind :=
  [.equalEqual, .bangEqual, .greater, .greaterEqual, .less, .lessEqual, .plus, .minus, .star, .slash]

/-- An expression whose tokens are admitted and of whose literals something holds. -/
inductive IsExpr (admits : Token → Prop) (holds : Value → Prop) : Node → Prop where
  | literal {value : Value} (hvalue : holds value) : IsExpr admits holds (.literal value)
  | grouping {inner : Node} (hinner : IsExpr admits holds inner) :
    IsExpr admits holds (.grouping inner)
  | varRef {t : Token} (hkind : t.kind = .identifier) (hadmits : admits t) :
    IsExpr admits holds (.varRef (.token t))
  | assign {t : Token} {value : Node} (hkind : t.kind = .identifier) (hadmits : admits t)
    (hvalue : IsExpr admits holds value) : IsExpr admits holds (.assign (.token t) value)
  | unary {t : Token} {right : Node} (hkind : t.kind ∈ unaryOperators) (hadmits : admits t)
    (hright : IsExpr admits holds right) : IsExpr admits holds (.unary (.token t) right)
  | binary {t : Token} {left right : Node} (hkind : t.kind ∈ binaryOperators)
    (hadmits : admits t) (hleft : IsExpr admits holds left)
    (hright : IsExpr admits holds right) : IsExpr admits holds (.binary left (.token t) right)

/-- A statement, or a declaration, made of such expressions. -/
inductive IsStmt (admits : Token → Prop) (holds : Value → Prop) : Clause → Node → Prop where
  | exprStmt {value : Node} (hvalue : IsExpr admits holds value) :
    IsStmt admits holds .statement (.exprStmt value)
  | printStmt {value : Node} (hvalue : IsExpr admits holds value) :
    IsStmt admits holds .statement (.printStmt value)
  | block {statements : List Node}
    (hstatements : ∀ node ∈ statements, IsStmt admits holds .declaration node) :
    IsStmt admits holds .statement (.block statements)
  | ifThen {condition thenBranch : Node} (hcondition : IsExpr admits holds condition)
    (hthen : IsStmt admits holds .statement thenBranch) :
    IsStmt admits holds .statement (.ifStmt condition thenBranch .absent)
  | ifElse {condition thenBranch elseBranch : Node} (hcondition : IsExpr admits holds condition)
    (hthen : IsStmt admits holds .statement thenBranch)
    (helse : IsStmt admits holds .statement elseBranch) :
    IsStmt admits holds .statement (.ifStmt condition thenBranch elseBranch)
  | whileStmt {condition body : Node} (hcondition : IsExpr admits holds condition)
    (hbody : IsStmt admits holds .statement body) :
    IsStmt admits holds .statement (.whileStmt condition body)
  | declare {t : Token} (hkind : t.kind = .identifier) (hadmits : admits t) :
    IsStmt admits holds .declaration (.varDecl (.token t) .absent)
  | declareAs {t : Token} {value : Node} (hkind : t.kind = .identifier) (hadmits : admits t)
    (hvalue : IsExpr admits holds value) :
    IsStmt admits holds .declaration (.varDecl (.token t) value)
  | statement {node : Node} (hnode : IsStmt admits holds .statement node) :
    IsStmt admits holds .declaration node

section

variable {admits : Token → Prop} {holds : Value → Prop} {node : Node}

theorem IsExpr.ne_absent (hnode : node.IsExpr admits holds) : node ≠ absent := by
  rintro rfl
  cases hnode

theorem IsStmt.ne_absent {clause : Clause} (hnode : node.IsStmt admits holds clause) :
    node ≠ absent := by
  rintro rfl
  cases hnode with
  | statement hnode => cases hnode

end

end Node

/-! ## Derived expressions -/

section

variable {admits : Token → Prop} {holds : Value → Prop}

/-- What has to hold of the literals of admitted tokens and of the constants. -/
structure Literals (admits : Token → Prop) (holds : Value → Prop) : Prop where
  token : ∀ t, admits t → t.kind = .number ∨ t.kind = .string → holds (Value.ofJson t.literal)
  boolean : ∀ b, holds (.boolean b)
  nil : holds .nil

theorem operators_subset_binaryOperators (level : Level) :
    level.operators ⊆ Node.binaryOperators := by
  cases level <;> decide

theorem isExpr_leaning {first : Node} {operations : List Operation} {level : Level}
    (hfirst : first.IsExpr admits holds)
    (hoperators : ∀ operation ∈ operations, operation.1.kind ∈ level.operators)
    (hadmits : ∀ operation ∈ operations, admits operation.1)
    (hoperands : ∀ operation ∈ operations, operation.2.tree.IsExpr admits holds) :
    (leaning first operations).IsExpr admits holds := by
  induction operations generalizing first with
  | nil => exact hfirst
  | cons operation operations ih =>
    rw [List.forall_mem_cons] at hoperators hadmits hoperands
    refine ih ?_ hoperators.2 hadmits.2 hoperands.2
    exact .binary (operators_subset_binaryOperators level hoperators.1) hadmits.1 hfirst
      hoperands.1

theorem Grammar.Expr.isExpr (hliterals : Literals admits holds) {rank : Rank}
    {tokens : List Token} {tree : Node} (hexpr : Expr .language rank tokens tree)
    (hadmits : ∀ t ∈ tokens, admits t) : tree.IsExpr admits holds := by
  induction hexpr with
  | @literal t hkind => exact .literal (hliterals.token t (hadmits t (by simp)) hkind)
  | truth => exact .literal (hliterals.boolean true)
  | falsity => exact .literal (hliterals.boolean false)
  | nil => exact .literal hliterals.nil
  | @name t hkind => exact .varRef hkind (hadmits t (by simp))
  | grouping _ _ _ ih => exact .grouping (ih fun t ht => hadmits t (by simp [ht]))
  | @unary operator _ _ hkind _ ih =>
    exact .unary hkind (hadmits operator (by simp)) (ih fun t ht => hadmits t (by simp [ht]))
  | primary _ ih | equality _ ih => exact ih hadmits
  | @chain level tokens _ operations _ hoperators _ ihfirst ihoperands =>
    have htokens : ∀ operation ∈ operations, ∀ t ∈ operation.1 :: operation.2.tokens, admits t := by
      intro operation hmem t ht
      refine hadmits t (List.mem_append_right _ ?_)
      exact List.mem_flatMap.2 ⟨operation, hmem, ht⟩
    refine isExpr_leaning (ihfirst fun t ht => hadmits t (List.mem_append_left _ ht)) hoperators
      (fun operation hmem => htokens operation hmem _ List.mem_cons_self) fun operation hmem => ?_
    exact ihoperands operation hmem fun t ht =>
      htokens operation hmem t (List.mem_cons_of_mem _ ht)
  | assign _ hname _ _ ihtarget ihvalue =>
    rw [SideConditions.language_target] at hname
    subst hname
    have htarget := ihtarget fun t ht => hadmits t (by simp [ht])
    cases htarget with
    | varRef hkind ht => exact .assign hkind ht (ihvalue fun t ht => hadmits t (by simp [ht]))

/-! ## Parsed statements

The parsers below start at `start` and only move forward, so that every token they meet is one of
the admitted ones there. -/

variable {start : Progress} {limit : Nat}

/-- A parser only moves forward, and what it returns has a certain shape. -/
def Builds {α : Type} (start : Progress) (parser : StmtParser α) (shape : α → Prop) : Prop :=
  Triple (Forward start) parser (fun a s => shape a ∧ Forward start s) fun _ => Forward start

section Builds

variable {α β : Type} {shape : α → Prop} {shape' : β → Prop}

theorem Builds.bind {parser : StmtParser α} {next : α → StmtParser β}
    (hparser : Builds start parser shape)
    (hnext : ∀ a, shape a → Builds start (next a) shape') :
    Builds start (parser >>= next) shape' :=
  Triple.bind hparser fun a => Triple.of_imp (hnext a)

theorem Builds.after {parser : StmtParser α} {next : α → StmtParser β}
    (hparser : Keeps (Forward start) parser) (hnext : ∀ a, Builds start (next a) shape') :
    Builds start (parser >>= next) shape' :=
  Triple.bind hparser hnext

theorem builds_pure {a : α} (ha : shape a) : Builds start (pure a) shape :=
  fun _ hforward => ⟨ha, hforward⟩

theorem builds_quietly {parser : ExprParser α} (hkeeps : ∀ base, Keeps (· <:+ base) parser)
    (hparser : ∀ tokens a rest, tokens <:+ start.rest → parser tokens = .ok a rest → shape a) :
    Builds start (quietly parser) shape := by
  intro s hforward
  have hend := keeps_forward_quietly hkeeps s hforward
  cases hrun : quietly parser s with
  | ok a after =>
    rw [hrun] at hend
    exact ⟨hparser _ _ _ hforward.rest (quietly_eq_ok.1 hrun).1, hend⟩
  | error halt after =>
    rw [hrun] at hend
    exact hend

end Builds

theorem builds_expect (hstart : ∀ t ∈ start.rest, admits t) (kind : Kind) (complaint : Complaint) :
    Builds start (quietly (expect kind complaint)) fun t => t.kind = kind ∧ admits t := by
  refine builds_quietly (fun _ => keeps_suffix_expect kind complaint) ?_
  intro tokens t rest hsuffix hrun
  obtain ⟨rfl, hkind⟩ := expect_eq_ok.1 hrun
  exact ⟨hkind, hstart t (hsuffix.subset List.mem_cons_self)⟩

theorem builds_expression (hliterals : Literals admits holds)
    (hstart : ∀ t ∈ start.rest, admits t) (limit : Nat) :
    Builds start (quietly (expression limit)) (Node.IsExpr admits holds) := by
  refine builds_quietly (fun _ => keeps_suffix_expression limit) ?_
  intro tokens value rest hsuffix hrun
  obtain ⟨taken, rfl, hexpr⟩ := (expression_sound limit).2 _ _ _ hrun
  exact hexpr.isExpr hliterals fun t ht => hstart t (hsuffix.subset (List.mem_append_left _ ht))

theorem builds_varDeclaration (hliterals : Literals admits holds)
    (hstart : ∀ t ∈ start.rest, admits t) :
    Builds start (varDeclaration (expression limit)) (Node.IsStmt admits holds .declaration) := by
  refine Builds.after keeps_forward_advance fun _ => ?_
  refine (builds_expect hstart _ _).bind fun name ⟨hkind, hadmits⟩ => ?_
  refine Builds.after keeps_forward_nextKind fun next => ?_
  dsimp only
  split
  · refine Builds.after keeps_forward_advance fun _ => ?_
    refine (builds_expression hliterals hstart limit).bind fun value hvalue => ?_
    refine Builds.after (keeps_forward_expect _ _) fun _ => ?_
    exact builds_pure (.declareAs hkind hadmits hvalue)
  · rw [pure_bind]
    exact Builds.after (keeps_forward_expect _ _) fun _ => builds_pure (.declare hkind hadmits)

theorem builds_recovering {parser : StmtParser Node} {shape : Node → Prop}
    (hparser : Builds start parser shape) :
    Builds start (recovering parser) fun result => ∀ node ∈ result, shape node := by
  intro s hforward
  have hend := hparser s hforward
  rw [recovering]
  cases hrun : parser s with
  | ok node after =>
    rw [hrun] at hend
    refine ⟨?_, hend.2⟩
    rintro _ ⟨⟩
    exact hend.1
  | error halt after =>
    rw [hrun] at hend
    cases halt with
    | fault fault =>
      exact ⟨by simp, (synchronize_suffix after.rest).trans hend.rest,
        hend.reports.trans (List.suffix_cons fault after.reports)⟩
    | tooDeep => exact hend

theorem builds_declaration (hliterals : Literals admits holds)
    (hstart : ∀ t ∈ start.rest, admits t)
    (hstatement : Builds start (statement limit) (Node.IsStmt admits holds .statement)) :
    Builds start (declaration (expression limit) (statement limit)) fun result =>
      ∀ node ∈ result, node.IsStmt admits holds .declaration := by
  refine builds_recovering (Builds.after keeps_forward_nextKind fun next => ?_)
  split
  · exact builds_varDeclaration hliterals hstart
  · intro s hforward
    cases hrun : statement limit s with
    | ok node after =>
      obtain ⟨hnode, hafter⟩ := hstatement.ok hforward hrun
      exact ⟨.statement hnode, hafter⟩
    | error halt after => exact hstatement.error hforward hrun

theorem builds_declarations {declaration : StmtParser (Option Node)} {shape : Node → Prop}
    (hdeclaration : Builds start declaration fun result => ∀ node ∈ result, shape node)
    (count : Nat) :
    Builds start (declarations declaration count) fun nodes => ∀ node ∈ nodes, shape node := by
  induction count with
  | zero => exact builds_pure (List.forall_mem_nil _)
  | succ count ih =>
    refine Builds.after keeps_forward_nextKind fun next => ?_
    split
    · exact builds_pure (List.forall_mem_nil _)
    · exact builds_pure (List.forall_mem_nil _)
    · refine hdeclaration.bind fun first hfirst => ih.bind fun rest hrest => builds_pure ?_
      intro node hmem
      rcases List.mem_append.1 hmem with hmem | hmem
      · exact hfirst node (Option.mem_toList.1 hmem)
      · exact hrest node hmem

/-- A condition in parentheses, with the parser that goes on after it. -/
theorem builds_condition {α : Type} {shape : α → Prop} (hliterals : Literals admits holds)
    (hstart : ∀ t ∈ start.rest, admits t) {before after : Complaint}
    {next : Node → StmtParser α}
    (hnext : ∀ condition, condition.IsExpr admits holds → Builds start (next condition) shape) :
    Builds start (do
      let _ ← quietly (expect .leftParen before)
      let condition ← quietly (expression limit)
      let _ ← quietly (expect .rightParen after)
      next condition) shape := by
  refine Builds.after (keeps_forward_expect _ _) fun _ => ?_
  refine (builds_expression hliterals hstart limit).bind fun condition hcondition => ?_
  exact Builds.after (keeps_forward_expect _ _) fun _ => hnext condition hcondition

theorem builds_statement (hliterals : Literals admits holds)
    (hstart : ∀ t ∈ start.rest, admits t) (limit : Nat) :
    Builds start (statement limit) (Node.IsStmt admits holds .statement) := by
  induction limit with
  | zero => exact fun _ hforward => hforward
  | succ limit ih =>
    refine Builds.after keeps_forward_nextKind fun next => ?_
    split
    · refine Builds.after keeps_forward_advance fun _ => ?_
      refine (builds_expression hliterals hstart limit).bind fun value hvalue => ?_
      exact Builds.after (keeps_forward_expect _ _) fun _ => builds_pure (.printStmt hvalue)
    · refine Builds.after keeps_forward_advance fun _ s hforward => ?_
      rw [get_bind]
      refine (builds_declarations (builds_declaration hliterals hstart ih) _).bind
        (fun nodes hnodes => ?_) s hforward
      exact Builds.after (keeps_forward_expect _ _) fun _ => builds_pure (.block hnodes)
    · refine Builds.after keeps_forward_advance fun _ => ?_
      refine builds_condition hliterals hstart fun condition hcondition => ?_
      refine ih.bind fun thenBranch hthen => Builds.after keeps_forward_nextKind fun next => ?_
      split
      · refine Builds.after keeps_forward_advance fun _ => ?_
        exact ih.bind fun elseBranch helse => builds_pure (.ifElse hcondition hthen helse)
      · exact builds_pure (.ifThen hcondition hthen)
    · refine Builds.after keeps_forward_advance fun _ => ?_
      refine builds_condition hliterals hstart fun condition hcondition => ?_
      exact ih.bind fun body hbody => builds_pure (.whileStmt hcondition hbody)
    · refine (builds_expression hliterals hstart limit).bind fun value hvalue => ?_
      exact Builds.after (keeps_forward_expect _ _) fun _ => builds_pure (.exprStmt hvalue)

/-! ## Programs -/

theorem skipStatement_suffix (depth : Nat) (tokens : List Token) :
    skipStatement depth tokens <:+ tokens := by
  fun_induction skipStatement depth tokens with
  | case1 => exact List.suffix_rfl
  | case3 => exact List.suffix_cons _ _
  | case5 => exact List.suffix_cons _ _
  | case2 _ _ _ _ ih | case4 _ _ _ _ _ ih | case6 _ _ _ _ _ ih | case7 _ _ _ _ _ _ ih =>
    exact ih.trans (List.suffix_cons _ _)

theorem topLevel_wellFormed (hliterals : Literals admits holds) (limit count : Nat)
    {state : Progress} (hstate : ∀ t ∈ state.rest, admits t) :
    ∀ node ∈ (topLevel limit count state).1, node.IsStmt admits holds .declaration := by
  induction count generalizing state with
  | zero => exact List.forall_mem_nil _
  | succ count ih =>
    have hdeclaration :=
      builds_declaration hliterals hstate (builds_statement hliterals hstate limit)
    have hend := hdeclaration state (Forward.refl state)
    rw [topLevel]
    split
    · exact List.forall_mem_nil _
    · split
      · next first after hrun =>
        rw [hrun] at hend
        intro node hmem
        rcases List.mem_append.1 hmem with hmem | hmem
        · exact hend.1 node (Option.mem_toList.1 hmem)
        · exact ih (fun t ht => hstate t (hend.2.rest.subset ht)) node hmem
      · next fault after hrun =>
        rw [hrun] at hend
        have hsuffix := (synchronize_suffix after.rest).trans hend.rest
        exact ih fun t ht => hstate t (hsuffix.subset ht)
      · exact ih fun t ht => hstate t ((skipStatement_suffix 0 state.rest).subset ht)

/-- Every tree that the parser returns is well formed, also when it reports errors. -/
theorem parse_wellFormed (hliterals : Literals admits holds) (limit : Nat) {tokens : List Token}
    (htokens : ∀ t ∈ tokens, admits t) :
    ∀ node ∈ (parse limit tokens).statements, node.IsStmt admits holds .declaration := by
  refine topLevel_wellFormed hliterals limit _ fun t ht => htokens t ?_
  rw [beforeEnd_fst] at ht
  exact (List.takeWhile_prefix _).subset ht

end

end Lox
