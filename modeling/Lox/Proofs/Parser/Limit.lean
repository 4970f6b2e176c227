import Lox.Proofs.Lookahead.Statement

/-!
# The limit of nesting

A parser with a smaller limit does the same as one with a larger limit, or it finds the nesting too
deep (`Curtails`). In the second case it has not gone past the place where the other one ends, if that
one meets no fault: it stops in front of a token that the other one takes, and has reported nothing.

A limit of a little more than twice as many levels as there are tokens is never met, so that what the
grammar derives is read within some limit.
-/

namespace Lox

open Lox.Computation Grammar

namespace Parser

/-! ## Stopping early -/

/-- One state comes before another, with at least one token between them. -/
def Before (s s' : Progress) : Prop :=
  ∃ t tail, s.rest = t :: tail ∧ Forward ⟨tail, s.reports⟩ s'

section Before

variable {s s' s'' : Progress}

theorem Before.forward (h : Before s s') (h' : Forward s' s'') : Before s s'' := by
  obtain ⟨t, tail, hrest, hforward⟩ := h
  exact ⟨t, tail, hrest, hforward.trans h'⟩

theorem before_of_shorter (hforward : Forward s s') (hlt : s'.rest.length < s.rest.length) :
    Before s s' := by
  cases hrest : s.rest with
  | nil =>
    rw [hrest] at hlt
    exact absurd hlt (Nat.not_lt_zero _)
  | cons t tail =>
    refine ⟨t, tail, hrest, ?_, hforward.reports⟩
    have hsuffix := hforward.rest
    rw [hrest] at hsuffix hlt
    rcases List.suffix_cons_iff.1 hsuffix with heq | htail
    · rw [heq] at hlt
      exact absurd hlt (Nat.lt_irrefl _)
    · exact htail

end Before

/-- From a state on, a parser does the same as another one, or it stops because the nesting is too
deep. Then it stops before the place where the other one ends, if that one reports nothing. -/
def CurtailsAt {α : Type} (parser whole : StmtParser α) (s : Progress) : Prop :=
  parser s = whole s ∨ ∃ left, parser s = .error .tooDeep left ∧
    ∀ a s', whole s = .ok a s' → s'.reports = s.reports → Before left s'

/-- A parser does the same as another one everywhere, as far as it goes. -/
structure Curtails {α : Type} (parser whole : StmtParser α) : Prop where
  keeps : ∀ start, Keeps (Forward start) whole
  everywhere : ∀ s, CurtailsAt parser whole s

section Rules

variable {α β : Type} {parser whole : StmtParser α} {s : Progress}

theorem CurtailsAt.of_eq {other other' : StmtParser α} {s₁ : Progress}
    (h : CurtailsAt other other' s₁) (hreports : s₁.reports = s.reports)
    (heq : parser s = other s₁) (heq' : whole s = other' s₁) : CurtailsAt parser whole s := by
  rw [CurtailsAt, heq, heq', ← hreports]
  exact h

theorem curtailsAt_same (heq : parser s = whole s) : CurtailsAt parser whole s :=
  .inl heq

/-- Where nothing at all is read, the other parser has to take a token. -/
theorem curtailsAt_tooDeep (hshorter : ∀ a s', whole s = .ok a s' → Before s s') :
    CurtailsAt (throw .tooDeep) whole s :=
  .inr ⟨s, rfl, fun a s' hok _ => hshorter a s' hok⟩

theorem CurtailsAt.bind {next next' : α → StmtParser β} (hparser : CurtailsAt parser whole s)
    (hkeeps : ∀ start, Keeps (Forward start) whole)
    (hnext : ∀ a s', whole s = .ok a s' → CurtailsAt (next a) (next' a) s')
    (hkeeps' : ∀ a start, Keeps (Forward start) (next' a)) :
    CurtailsAt (parser >>= next) (whole >>= next') s := by
  have hsilent {b : β} {s'' : Progress} (hok : (whole >>= next') s = .ok b s'')
      (hreports : s''.reports = s.reports) : ∃ a s', whole s = .ok a s' ∧ next' a s' = .ok b s'' ∧
        Forward s' s'' ∧ s'.reports = s.reports := by
    obtain ⟨a, s', hwhole, hrest⟩ := bind_eq_ok.1 hok
    have hforward := (hkeeps s).ok (Forward.refl s) hwhole
    have hforward' := (hkeeps' a s').ok (Forward.refl s') hrest
    exact ⟨a, s', hwhole, hrest, hforward', (hforward.reports_eq hforward' hreports).1⟩
  rcases hparser with heq | ⟨left, hdeep, hbefore⟩
  · cases hwhole : whole s with
    | ok a s' =>
      rcases hnext a s' hwhole with hsame | ⟨left, hdeep, hbefore⟩
      · refine .inl ?_
        rw [bind_of_ok (heq.trans hwhole), bind_of_ok hwhole, hsame]
      · refine .inr ⟨left, by rw [bind_of_ok (heq.trans hwhole), hdeep], ?_⟩
        intro b s'' hok hreports
        obtain ⟨a, s₁, hwhole', hrest, -, hsame⟩ := hsilent hok hreports
        cases hwhole.symm.trans hwhole'
        exact hbefore b s'' hrest (hreports.trans hsame.symm)
    | error halt s' =>
      refine .inl ?_
      rw [bind_of_error (heq.trans hwhole), bind_of_error hwhole]
  · refine .inr ⟨left, bind_of_error hdeep next, fun b s'' hok hreports => ?_⟩
    obtain ⟨a, s', hwhole, -, hforward, hsame⟩ := hsilent hok hreports
    exact (hbefore a s' hwhole hsame).forward hforward

theorem Curtails.bind {next next' : α → StmtParser β} (hparser : Curtails parser whole)
    (hnext : ∀ a, Curtails (next a) (next' a)) : Curtails (parser >>= next) (whole >>= next') where
  keeps start := (hparser.keeps start).bind fun a => (hnext a).keeps start
  everywhere s := (hparser.everywhere s).bind hparser.keeps (fun a s' _ => (hnext a).everywhere s')
    fun a => (hnext a).keeps

theorem curtails_refl (hkeeps : ∀ start, Keeps (Forward start) parser) : Curtails parser parser :=
  ⟨hkeeps, fun _ => .inl rfl⟩

theorem curtails_pure (a : α) : Curtails (pure a : StmtParser α) (pure a) :=
  curtails_refl fun _ => keeps_pure a

theorem curtails_expect (kind : Kind) (complaint : Complaint) :
    Curtails (quietly (expect kind complaint)) (quietly (expect kind complaint)) :=
  curtails_refl fun _ => keeps_forward_expect kind complaint

/-- A fault that is recovered from is reported, so nothing is said about it. -/
theorem Curtails.recovering {parser whole : StmtParser Node} (hparser : Curtails parser whole) :
    Curtails (recovering parser) (recovering whole) where
  keeps start := keeps_forward_recovering (hparser.keeps start)
  everywhere s := by
    rcases hparser.everywhere s with heq | ⟨left, hdeep, hbefore⟩
    · refine .inl ?_
      rw [Parser.recovering, Parser.recovering, heq]
    · refine .inr ⟨left, by rw [Parser.recovering, hdeep], fun result s' hok hreports => ?_⟩
      rcases recovering_eq_ok.1 hok with ⟨tree, hwhole, -⟩ | ⟨fault, after, hfault, -, rfl⟩
      · exact hbefore tree s' hwhole hreports
      · have hle := ((hparser.keeps s).error (Forward.refl s) hfault).reports.length_le
        have hlength := congrArg List.length hreports
        dsimp only [List.length_cons] at hlength
        omega

end Rules

/-! ## Expressions -/

section Expressions

theorem curtailsAt_chainTail {isOperator : Kind → Bool} {operand operand' : ExprParser Node}
    (hsuffix : ∀ base, Keeps (· <:+ base) operand) (hsuffix' : ∀ base, Keeps (· <:+ base) operand')
    (hoperand : Curtails (quietly operand) (quietly operand')) (left : Node) (s : Progress) :
    CurtailsAt (quietly (chainTail isOperator operand left))
      (quietly (chainTail isOperator operand' left)) s := by
  obtain ⟨tokens, reports⟩ := s
  induction hlength : tokens.length using Nat.strong_induction_on generalizing tokens reports left with
  | _ length ih =>
  subst hlength
  by_cases hbegins : beginsWith isOperator tokens = true
  · cases tokens with
    | nil => cases hbegins
    | cons t rest =>
      have hnext : CurtailsAt
          (quietly operand >>= fun right =>
            quietly (chainTail isOperator operand (.binary left (.token t) right)))
          (quietly operand' >>= fun right =>
            quietly (chainTail isOperator operand' (.binary left (.token t) right)))
          ⟨rest, reports⟩ := by
        refine (hoperand.everywhere _).bind hoperand.keeps (fun right s' hok => ?_) fun right _ => ?_
        · have hle := ((hoperand.keeps _).ok (Forward.refl _) hok).length_le
          exact ih s'.rest.length (Nat.lt_succ_of_le hle) _ s'.rest s'.reports rfl
        · exact keeps_forward_quietly fun base => keeps_suffix_chainTail hsuffix' _ base
      refine hnext.of_eq rfl ?_ ?_
      · rw [← quietly_bind]
        exact quietly_of_eq (chainTail_cons hsuffix left rest hbegins) reports
      · rw [← quietly_bind]
        exact quietly_of_eq (chainTail_cons hsuffix' left rest hbegins) reports
  · have hstop : beginsWith isOperator tokens = false := Bool.eq_false_iff.2 hbegins
    apply curtailsAt_same
    simp only [quietly, chainTail_of_stop left hstop]

theorem curtails_chain {operand operand' : ExprParser Node} (isOperator : Kind → Bool)
    (hsuffix : ∀ base, Keeps (· <:+ base) operand) (hsuffix' : ∀ base, Keeps (· <:+ base) operand')
    (hoperand : Curtails (quietly operand) (quietly operand')) :
    Curtails (quietly (chain isOperator operand)) (quietly (chain isOperator operand')) := by
  rw [chain_eq_bind, chain_eq_bind, quietly_bind, quietly_bind]
  exact hoperand.bind fun left =>
    ⟨fun _ => keeps_forward_quietly fun base => keeps_suffix_chainTail hsuffix' left base,
      curtailsAt_chainTail hsuffix hsuffix' hoperand left⟩

variable {limit limit' : Nat}

theorem curtails_equality (hunary : Curtails (quietly (unary limit)) (quietly (unary limit'))) :
    Curtails (quietly (equality (unary limit))) (quietly (equality (unary limit'))) := by
  have hsuffix (limit : Nat) (base : List Token) : Keeps (· <:+ base) (unary limit) :=
    (keeps_suffix_assignment_unary limit).2
  have hsuffix₁ (isOperator : Kind → Bool) (limit : Nat) (base : List Token) :=
    @keeps_suffix_chain base isOperator _ (hsuffix limit base)
  have hsuffix₂ (isOperator isOperator' : Kind → Bool) (limit : Nat) (base : List Token) :=
    @keeps_suffix_chain base isOperator _ (hsuffix₁ isOperator' limit base)
  have hfactor := curtails_chain isFactorOperator (hsuffix limit) (hsuffix limit') hunary
  have hterm := curtails_chain isTermOperator (hsuffix₁ _ limit) (hsuffix₁ _ limit') hfactor
  have hcomparison := curtails_chain isComparisonOperator (hsuffix₂ _ _ limit) (hsuffix₂ _ _ limit')
    hterm
  exact curtails_chain isEqualityOperator (fun _ => keeps_suffix_chain (hsuffix₂ _ _ limit _))
    (fun _ => keeps_suffix_chain (hsuffix₂ _ _ limit' _)) hcomparison

theorem curtails_assignmentTail
    (hassignment : Curtails (quietly (assignment limit)) (quietly (assignment limit')))
    (target : Node) :
    Curtails (quietly (assignmentTail limit target)) (quietly (assignmentTail limit' target)) where
  keeps _ := keeps_forward_quietly fun base => keeps_suffix_assignmentTail target base
  everywhere s := by
    obtain ⟨tokens, reports⟩ := s
    by_cases hbegins : beginsWith (· = .equal) tokens = true
    · cases tokens with
      | nil => cases hbegins
      | cons t rest =>
        have hequal : t.kind = .equal := of_decide_eq_true hbegins
        have hassign := hassignment.bind fun value => curtails_refl fun start =>
          keeps_forward_quietly fun base => keeps_suffix_assignTo target value (t :: rest)
        refine (hassign.everywhere ⟨rest, reports⟩).of_eq rfl ?_ ?_
        · rw [← quietly_bind]
          exact quietly_of_eq (assignmentTail_of_equal target hequal rest) reports
        · rw [← quietly_bind]
          exact quietly_of_eq (assignmentTail_of_equal target hequal rest) reports
    · have hstop : beginsWith (· = .equal) tokens = false := Bool.eq_false_iff.2 hbegins
      apply curtailsAt_same
      simp only [quietly, assignmentTail_of_stop target hstop]

theorem curtails_assignment_succ
    (hunary : Curtails (quietly (unary limit)) (quietly (unary limit')))
    (hassignment : Curtails (quietly (assignment limit)) (quietly (assignment limit'))) :
    Curtails (quietly (assignment (limit + 1))) (quietly (assignment (limit' + 1))) := by
  rw [assignment_eq_bind, assignment_eq_bind, quietly_bind, quietly_bind]
  exact (curtails_equality hunary).bind (curtails_assignmentTail hassignment)

theorem curtails_unary_succ
    (hunary : Curtails (quietly (unary limit)) (quietly (unary limit')))
    (hassignment : Curtails (quietly (assignment limit)) (quietly (assignment limit'))) :
    Curtails (quietly (unary (limit + 1))) (quietly (unary (limit' + 1))) where
  keeps _ := keeps_forward_quietly fun _ => (keeps_suffix_assignment_unary (limit' + 1)).2
  everywhere s := by
    obtain ⟨tokens, reports⟩ := s
    cases tokens with
    | nil => exact curtailsAt_same rfl
    | cons t rest =>
      by_cases hoperator : isUnaryOperator t.kind = true
      · have hright := hunary.bind fun right => curtails_pure (Node.unary (.token t) right)
        refine (hright.everywhere ⟨rest, reports⟩).of_eq rfl ?_ ?_
        · rw [quietly_of_eq (unary_of_operator hoperator rest), quietly_bind]
          rfl
        · rw [quietly_of_eq (unary_of_operator hoperator rest), quietly_bind]
          rfl
      by_cases hparen : t.kind = .leftParen
      · have hinner := hassignment.bind fun inner =>
          (curtails_expect .rightParen .parenAfterExpression).bind fun _ =>
            curtails_pure (Node.grouping inner)
        refine (hinner.everywhere ⟨rest, reports⟩).of_eq rfl ?_ ?_
        · rw [quietly_of_eq (unary_of_paren hparen rest)]
          simp only [quietly_bind, quietly_pure]
        · rw [quietly_of_eq (unary_of_paren hparen rest)]
          simp only [quietly_bind, quietly_pure]
      apply curtailsAt_same
      cases hleaf : leaf? t with
      | some leaf => simp only [quietly, unary_of_leaf hleaf]
      | none => simp only [quietly, unary_of_other hoperator hparen hleaf]

/-- An expression takes a token. -/
theorem before_of_quietly {parser : ExprParser Node} {rank : Rank} {s s' : Progress} {tree : Node}
    (hsound : Sound parser (Expr .language rank)) (hok : quietly parser s = .ok tree s') :
    Before s s' := by
  obtain ⟨hrun, hreports⟩ := quietly_eq_ok.1 hok
  obtain ⟨taken, htaken, hexpr⟩ := hsound _ _ _ hrun
  obtain ⟨t, tail, rfl, -⟩ := hexpr.begins
  refine ⟨t, tail ++ s'.rest, by rw [htaken]; rfl, List.suffix_append tail s'.rest, ?_⟩
  rw [hreports]

theorem curtails_assignment_unary (hle : limit ≤ limit') :
    Curtails (quietly (assignment limit)) (quietly (assignment limit')) ∧
      Curtails (quietly (unary limit)) (quietly (unary limit')) := by
  induction limit generalizing limit' with
  | zero =>
    obtain ⟨hunary, hassignment⟩ := expression_sound limit'
    refine ⟨⟨fun _ => keeps_forward_quietly fun _ => (keeps_suffix_assignment_unary limit').1,
      fun s => ?_⟩, ⟨fun _ => keeps_forward_quietly fun _ => (keeps_suffix_assignment_unary limit').2,
      fun s => ?_⟩⟩
    · exact curtailsAt_tooDeep fun _ _ hok => before_of_quietly hassignment hok
    · exact curtailsAt_tooDeep fun _ _ hok => before_of_quietly hunary hok
  | succ limit ih =>
    obtain ⟨limit', rfl⟩ : ∃ n, limit' = n + 1 := ⟨limit' - 1, by omega⟩
    obtain ⟨hassignment, hunary⟩ := @ih limit' (Nat.le_of_succ_le_succ hle)
    exact ⟨curtails_assignment_succ hunary hassignment, curtails_unary_succ hunary hassignment⟩

theorem curtails_expression (hle : limit ≤ limit') :
    Curtails (quietly (expression limit)) (quietly (expression limit')) :=
  (curtails_assignment_unary hle).1

end Expressions

/-! ## Statements -/

section Statements

variable {limit limit' : Nat}

theorem curtails_elseTail (hstatement : Curtails (statement limit) (statement limit'))
    (condition thenBranch : Node) :
    Curtails (elseTail limit condition thenBranch) (elseTail limit' condition thenBranch) where
  keeps := (predicts_elseTail (predicts_statement limit') condition thenBranch).keeps
  everywhere s := by
    by_cases helse : s.rest.head?.map (·.kind) = some .elseWord
    · obtain ⟨tokens, reports⟩ := s
      obtain ⟨t, rest, rfl, hkind⟩ := head?_kind_eq_some.1 helse
      have hbranch := hstatement.bind fun elseBranch =>
        curtails_pure (Node.ifStmt condition thenBranch elseBranch)
      exact (hbranch.everywhere ⟨rest, reports⟩).of_eq rfl (elseTail_of_else _ _ hkind rest reports)
        (elseTail_of_else _ _ hkind rest reports)
    · apply curtailsAt_same
      rw [elseTail_of_stop _ _ helse, elseTail_of_stop _ _ helse]

theorem curtails_expression_expect (hle : limit ≤ limit') (kind : Kind) (complaint : Complaint)
    (build : Node → Node) :
    Curtails (do
      let value ← quietly (expression limit)
      let _ ← quietly (expect kind complaint)
      return build value) (do
      let value ← quietly (expression limit')
      let _ ← quietly (expect kind complaint)
      return build value) :=
  (curtails_expression hle).bind fun value =>
    (curtails_expect kind complaint).bind fun _ => curtails_pure (build value)

theorem curtails_condition {next next' : Node → StmtParser Node} (hle : limit ≤ limit')
    (opens closes : Complaint) (hnext : ∀ condition, Curtails (next condition) (next' condition)) :
    Curtails (do
      let _ ← quietly (expect .leftParen opens)
      let condition ← quietly (expression limit)
      let _ ← quietly (expect .rightParen closes)
      next condition) (do
      let _ ← quietly (expect .leftParen opens)
      let condition ← quietly (expression limit')
      let _ ← quietly (expect .rightParen closes)
      next' condition) :=
  (curtails_expect .leftParen opens).bind fun _ => (curtails_expression hle).bind fun condition =>
    (curtails_expect .rightParen closes).bind fun _ => hnext condition

theorem curtails_initializerTail (hle : limit ≤ limit') (name : Token) :
    Curtails (initializerTail limit name) (initializerTail limit' name) where
  keeps := (predicts_initializerTail limit' .next name).keeps
  everywhere s := by
    by_cases hequal : s.rest.head?.map (·.kind) = some .equal
    · obtain ⟨tokens, reports⟩ := s
      obtain ⟨t, rest, rfl, hkind⟩ := head?_kind_eq_some.1 hequal
      have hvalue := curtails_expression_expect hle .semicolon .semicolonAfterDeclaration
        (Node.varDecl (.token name))
      exact (hvalue.everywhere ⟨rest, reports⟩).of_eq rfl
        (initializerTail_of_equal name hkind rest reports)
        (initializerTail_of_equal name hkind rest reports)
    · apply curtailsAt_same
      rw [initializerTail_of_stop name hequal, initializerTail_of_stop name hequal]

theorem curtails_declaration (hle : limit ≤ limit')
    (hstatement : Curtails (statement limit) (statement limit')) :
    Curtails (declaration (expression limit) (statement limit))
      (declaration (expression limit') (statement limit')) := by
  rw [declaration_eq_recovering, declaration_eq_recovering]
  refine Curtails.recovering ⟨fun _ => keeps_forward_clauseParser limit' .declaration, fun s => ?_⟩
  by_cases hvar : s.rest.head?.map (·.kind) = some .varWord
  · obtain ⟨tokens, reports⟩ := s
    obtain ⟨t, rest, rfl, hkind⟩ := head?_kind_eq_some.1 hvar
    have hname := (curtails_expect .identifier .variableName).bind (curtails_initializerTail hle)
    exact (hname.everywhere ⟨rest, reports⟩).of_eq rfl (clauseParser_of_var hkind rest reports)
      (clauseParser_of_var hkind rest reports)
  · exact (hstatement.everywhere s).of_eq rfl (clauseParser_of_other hvar)
      (clauseParser_of_other hvar)

theorem curtails_declarationLoop (hle : limit ≤ limit')
    (hstatement : Curtails (statement limit) (statement limit')) :
    Curtails (declarationLoop limit) (declarationLoop limit') where
  keeps := keeps_forward_declarationLoop limit'
  everywhere s := by
    obtain ⟨tokens, reports⟩ := s
    induction hlength : tokens.length using Nat.strong_induction_on generalizing tokens reports with
    | _ length ih =>
    subst hlength
    by_cases hgoes : beginsWith (· ≠ .rightBrace) tokens = true
    · cases tokens with
      | nil => cases hgoes
      | cons t rest =>
        have hkind : t.kind ≠ .rightBrace := of_decide_eq_true hgoes
        have hdeclaration := curtails_declaration hle hstatement
        have hbody : CurtailsAt (do
            let first ← declaration (expression limit) (statement limit)
            let others ← declarationLoop limit
            return first.toList ++ others) (do
            let first ← declaration (expression limit') (statement limit')
            let others ← declarationLoop limit'
            return first.toList ++ others) ⟨t :: rest, reports⟩ := by
          refine (hdeclaration.everywhere _).bind hdeclaration.keeps (fun first s' hok => ?_)
            fun _ start => (keeps_forward_declarationLoop limit' start).bind fun _ => keeps_pure _
          have hlt := declaration_shorter (List.cons_ne_nil t rest) hok
          exact (ih s'.rest.length hlt s'.rest s'.reports rfl).bind
            (keeps_forward_declarationLoop limit') (fun _ _ _ => curtailsAt_same rfl)
            fun _ _ => keeps_pure _
        exact hbody.of_eq rfl (declarationLoop_of_next hkind) (declarationLoop_of_next hkind)
    · have hstop : beginsWith (· ≠ .rightBrace) tokens = false := Bool.eq_false_iff.2 hgoes
      apply curtailsAt_same
      rw [declarationLoop_of_stop hstop, declarationLoop_of_stop hstop]

theorem curtailsAt_statement_succ (hle : limit ≤ limit')
    (hstatement : Curtails (statement limit) (statement limit')) (s : Progress) :
    CurtailsAt (statement (limit + 1)) (statement (limit' + 1)) s := by
  by_cases hother : ∀ kind ∈ [Kind.printWord, .leftBrace, .ifWord, .whileWord],
      s.rest.head?.map (·.kind) ≠ some kind
  · have hvalue := curtails_expression_expect hle .semicolon .semicolonAfterExpression Node.exprStmt
    exact (hvalue.everywhere s).of_eq rfl (statement_of_other hother) (statement_of_other hother)
  · push Not at hother
    obtain ⟨kind, hmem, hhead⟩ := hother
    obtain ⟨tokens, reports⟩ := s
    obtain ⟨t, rest, rfl, hkind⟩ := head?_kind_eq_some.1 hhead
    subst hkind
    simp only [List.mem_cons, List.not_mem_nil, or_false] at hmem
    rcases hmem with hkind | hkind | hkind | hkind
    · have hvalue := curtails_expression_expect hle .semicolon .semicolonAfterValue Node.printStmt
      exact (hvalue.everywhere ⟨rest, reports⟩).of_eq rfl (statement_of_print hkind rest reports)
        (statement_of_print hkind rest reports)
    · have hblock := (curtails_declarationLoop hle hstatement).bind fun statements =>
        (curtails_expect .rightBrace .braceAfterBlock).bind fun _ =>
          curtails_pure (Node.block statements)
      exact (hblock.everywhere ⟨rest, reports⟩).of_eq rfl (statement_of_block hkind rest reports)
        (statement_of_block hkind rest reports)
    · have hbranches := curtails_condition hle .parenAfterIf .parenAfterIfCondition fun condition =>
        hstatement.bind fun thenBranch => curtails_elseTail hstatement condition thenBranch
      exact (hbranches.everywhere ⟨rest, reports⟩).of_eq rfl (statement_of_if hkind rest reports)
        (statement_of_if hkind rest reports)
    · have hloop := curtails_condition hle .parenAfterWhile .parenAfterCondition fun condition =>
        hstatement.bind fun body => curtails_pure (Node.whileStmt condition body)
      exact (hloop.everywhere ⟨rest, reports⟩).of_eq rfl (statement_of_while hkind rest reports)
        (statement_of_while hkind rest reports)

theorem curtails_statement (hle : limit ≤ limit') :
    Curtails (statement limit) (statement limit') := by
  induction limit generalizing limit' with
  | zero =>
    refine ⟨fun _ => keeps_forward_statement limit', fun s => curtailsAt_tooDeep fun _ s' hok => ?_⟩
    exact before_of_shorter ((keeps_forward_statement limit').ok (Forward.refl s) hok)
      (statement_shorter hok)
  | succ limit ih =>
    obtain ⟨limit', rfl⟩ : ∃ n, limit' = n + 1 := ⟨limit' - 1, by omega⟩
    have hle : limit ≤ limit' := Nat.le_of_succ_le_succ hle
    exact ⟨fun _ => keeps_forward_statement _, curtailsAt_statement_succ hle (ih hle)⟩

/-- A declaration at the top level, within a smaller limit and a larger one. -/
theorem curtails_topDeclaration (hle : limit ≤ limit') :
    Curtails (declaration (expression limit) (statement limit))
      (declaration (expression limit') (statement limit')) :=
  curtails_declaration hle (curtails_statement hle)

end Statements

/-! ## Enough room -/

/-- On states of at most some size, a parser never finds the nesting too deep, and does not make them
larger. -/
def Roomy {σ α : Type} (size : σ → Nat) (bound : Nat) (parser : EStateM Halt σ α) : Prop :=
  Triple (fun s => size s ≤ bound) parser (fun _ s => size s ≤ bound)
    fun halt s => halt ≠ .tooDeep ∧ size s ≤ bound

section Room

variable {σ α β : Type} {size : σ → Nat} {bound : Nat}

theorem Roomy.bind {parser : EStateM Halt σ α} {next : α → EStateM Halt σ β}
    (hparser : Roomy size bound parser) (hnext : ∀ a, Roomy size bound (next a)) :
    Roomy size bound (parser >>= next) :=
  Triple.bind hparser hnext

theorem roomy_pure (a : α) : Roomy size bound (pure a : EStateM Halt σ α) :=
  fun _ hsize => hsize

/-- A smaller state needs less room. -/
theorem Roomy.at_smaller {parser : EStateM Halt σ α} {fewer : Nat} {s : σ}
    (hparser : Roomy size fewer parser) (hle : fewer ≤ bound) (hsize : size s ≤ fewer) :
    Ends (fun _ s => size s ≤ bound) (fun halt s => halt ≠ .tooDeep ∧ size s ≤ bound) (parser s) := by
  have hend := hparser s hsize
  cases hrun : parser s with
  | ok a s' =>
    rw [hrun] at hend
    exact Nat.le_trans hend hle
  | error halt s' =>
    rw [hrun] at hend
    exact ⟨hend.1, Nat.le_trans hend.2 hle⟩

end Room

theorem Halt.fault_ne_tooDeep (fault : Fault) : Halt.fault fault ≠ .tooDeep := by
  intro heq
  cases heq

section RoomForExpressions

variable {bound : Nat}

theorem roomy_expect (kind : Kind) (complaint : Complaint) :
    Roomy List.length bound (expect kind complaint) := by
  intro tokens hsize
  cases tokens with
  | nil => exact ⟨Halt.fault_ne_tooDeep _, hsize⟩
  | cons t rest =>
    rw [expect]
    split
    · exact Nat.le_of_succ_le hsize
    · exact ⟨Halt.fault_ne_tooDeep _, hsize⟩

theorem roomy_chain {isOperator : Kind → Bool} {operand : ExprParser Node}
    (hoperand : Roomy List.length bound operand) :
    Roomy List.length bound (chain isOperator operand) := by
  have hfrom (count : Nat) (left : Node) :
      Roomy List.length bound (chainFrom isOperator operand count left) := by
    induction count generalizing left with
    | zero => exact roomy_pure left
    | succ count ih =>
      intro tokens hsize
      rw [chainFrom, get_bind]
      cases tokens with
      | nil => exact hsize
      | cons t rest =>
        dsimp only
        split
        · rw [set_bind]
          exact hoperand.bind (fun _ => ih _) rest (Nat.le_of_succ_le hsize)
        · exact hsize
  refine hoperand.bind fun left tokens hsize => ?_
  rw [get_bind]
  split
  · exact hfrom _ _ tokens hsize
  · exact hsize

theorem roomy_assignTo (target value : Node) (found : List Token) :
    Roomy List.length bound (assignTo target value found) := by
  unfold assignTo
  split
  · exact roomy_pure _
  · exact fun _ hsize => ⟨Halt.fault_ne_tooDeep _, hsize⟩

/-- Two levels for each token are enough: a value that is assigned takes one, and so does an operand
or what stands in parentheses. -/
theorem roomy_assignment_unary (limit bound : Nat) :
    (2 * bound + 2 ≤ limit → Roomy List.length bound (assignment limit)) ∧
      (2 * bound + 1 ≤ limit → Roomy List.length bound (unary limit)) := by
  induction limit generalizing bound with
  | zero => exact ⟨fun hle => by omega, fun hle => by omega⟩
  | succ limit ih =>
    refine ⟨fun hle => ?_, fun hle tokens hsize => ?_⟩
    · rw [assignment]
      have hequality : Roomy List.length bound (equality (unary limit)) :=
        roomy_chain (roomy_chain (roomy_chain (roomy_chain ((ih bound).2 (by omega)))))
      refine hequality.bind fun target found hsize => ?_
      rw [get_bind]
      split
      · next hequal =>
        cases found with
        | nil => cases hequal
        | cons t rest =>
          have hrest : rest.length + 1 ≤ bound := hsize
          have hvalue := ((ih (bound - 1)).1 (by omega)).bind fun value =>
            roomy_assignTo target value (t :: rest)
          rw [set_bind]
          exact hvalue.at_smaller (Nat.sub_le _ _) (Nat.le_sub_one_of_lt hrest)
      · exact hsize
    · rw [unary, get_bind]
      cases tokens with
      | nil => exact ⟨Halt.fault_ne_tooDeep _, hsize⟩
      | cons t rest =>
        have hrest : rest.length + 1 ≤ bound := hsize
        have hfewer : rest.length ≤ bound - 1 := Nat.le_sub_one_of_lt hrest
        dsimp only
        split
        · have hright := ((ih (bound - 1)).2 (by omega)).bind fun right =>
            roomy_pure (Node.unary (.token t) right)
          rw [set_bind]
          exact hright.at_smaller (Nat.sub_le _ _) hfewer
        · split
          · have hinner := ((ih (bound - 1)).1 (by omega)).bind fun inner =>
              (roomy_expect .rightParen .parenAfterExpression).bind fun _ =>
                roomy_pure (Node.grouping inner)
            rw [set_bind]
            exact hinner.at_smaller (Nat.sub_le _ _) hfewer
          · cases leaf? t with
            | none => exact ⟨Halt.fault_ne_tooDeep _, hsize⟩
            | some leaf => exact Nat.le_of_succ_le hrest

end RoomForExpressions

section RoomForStatements

variable {bound : Nat}

def Progress.length (s : Progress) : Nat :=
  s.rest.length

theorem roomy_quietly {α : Type} {parser : ExprParser α} (hparser : Roomy List.length bound parser) :
    Roomy Progress.length bound (quietly parser) := by
  intro s hsize
  have hend := hparser s.rest hsize
  rw [quietly]
  cases hrun : parser s.rest with
  | ok a rest =>
    rw [hrun] at hend
    exact hend
  | error halt rest =>
    rw [hrun] at hend
    exact hend

theorem roomy_quietly_expect (kind : Kind) (complaint : Complaint) :
    Roomy Progress.length bound (quietly (expect kind complaint)) :=
  roomy_quietly (roomy_expect kind complaint)

theorem roomy_nextKind : Roomy Progress.length bound nextKind :=
  fun _ hsize => hsize

theorem roomy_advance : Roomy Progress.length bound advance := by
  intro s hsize
  change s.rest.tail.length ≤ bound
  rw [List.length_tail]
  exact Nat.le_trans (Nat.sub_le _ _) hsize

theorem Roomy.recovering {parser : StmtParser Node} (hparser : Roomy Progress.length bound parser) :
    Roomy Progress.length bound (recovering parser) := by
  intro s hsize
  have hend := hparser s hsize
  rw [Parser.recovering]
  cases hrun : parser s with
  | ok node after =>
    rw [hrun] at hend
    exact hend
  | error halt after =>
    rw [hrun] at hend
    cases halt with
    | fault fault => exact Nat.le_trans (synchronize_suffix after.rest).length_le hend.2
    | tooDeep => exact absurd rfl hend.1

theorem handedOn_roomy (bound : Nat) :
    HandedOn fun _ parser => Roomy Progress.length bound parser where
  pure := roomy_pure
  bind := Roomy.bind
  nextKind := roomy_nextKind
  advance := roomy_advance
  expect kind complaint _ := roomy_quietly_expect kind complaint

theorem roomy_declaration {expression : ExprParser Node} {statement : StmtParser Node}
    (hexpression : Roomy Progress.length bound (quietly expression))
    (hstatement : Roomy Progress.length bound statement) :
    Roomy Progress.length bound (declaration expression statement) := by
  refine Roomy.recovering (roomy_nextKind.bind fun next => ?_)
  split
  · exact (handedOn_roomy bound).varDeclaration hexpression
  · exact hstatement

theorem roomy_elseTail {limit : Nat} (hstatement : Roomy Progress.length bound (statement limit))
    (condition thenBranch : Node) :
    Roomy Progress.length bound (elseTail limit condition thenBranch) := by
  refine roomy_nextKind.bind fun next => ?_
  split
  · exact roomy_advance.bind fun _ => hstatement.bind fun _ => roomy_pure _
  · exact roomy_pure _

theorem roomy_statement {limit : Nat} (hle : 2 * bound + 3 ≤ limit) :
    Roomy Progress.length bound (statement limit) := by
  induction limit generalizing bound with
  | zero => omega
  | succ limit ih =>
    intro s hsize
    have hexpression {fewer : Nat} (hfewer : fewer ≤ bound) :
        Roomy Progress.length fewer (quietly (expression limit)) :=
      roomy_quietly ((roomy_assignment_unary limit fewer).1 (by omega))
    by_cases hother : ∀ kind ∈ [Kind.printWord, .leftBrace, .ifWord, .whileWord],
        s.rest.head?.map (·.kind) ≠ some kind
    · rw [statement_of_other hother]
      exact (handedOn_roomy bound).expressionStatement (hexpression (Nat.le_refl _)) s hsize
    · push Not at hother
      obtain ⟨kind, hmem, hhead⟩ := hother
      obtain ⟨tokens, reports⟩ := s
      obtain ⟨t, rest, rfl, hkind⟩ := head?_kind_eq_some.1 hhead
      subst hkind
      -- The keyword is taken, so that the statements inside have a token less and a level less.
      have hrest : rest.length + 1 ≤ bound := hsize
      have hfewer : Progress.length ⟨rest, reports⟩ ≤ bound - 1 := Nat.le_sub_one_of_lt hrest
      have hvalue := hexpression (Nat.sub_le bound 1)
      have hstatement : Roomy Progress.length (bound - 1) (statement limit) := ih (by omega)
      simp only [List.mem_cons, List.not_mem_nil, or_false] at hmem
      rcases hmem with hkind | hkind | hkind | hkind
      · rw [statement_of_print hkind]
        have hprint := (handedOn_roomy (bound - 1)).value hvalue .printStmt .semicolon
          (show Complaint.semicolonAfterValue ≠ .braceAfterBlock by decide)
        exact Roomy.at_smaller hprint (Nat.sub_le _ _) hfewer
      · rw [statement_of_block hkind]
        have hloop : Roomy Progress.length (bound - 1) (declarationLoop limit) := fun s hs =>
          (handedOn_roomy _).declarations (roomy_declaration hvalue hstatement) s.rest.length s hs
        refine Roomy.at_smaller (hloop.bind fun _ => ?_) (Nat.sub_le _ _) hfewer
        exact (roomy_quietly_expect _ _).bind fun _ => roomy_pure _
      · rw [statement_of_if hkind]
        refine Roomy.at_smaller ?_ (Nat.sub_le _ _) hfewer
        refine (handedOn_roomy _).condition hvalue (by decide) (by decide) fun _ => ?_
        exact hstatement.bind (roomy_elseTail hstatement _)
      · rw [statement_of_while hkind]
        refine Roomy.at_smaller ?_ (Nat.sub_le _ _) hfewer
        refine (handedOn_roomy _).condition hvalue (by decide) (by decide) fun _ => ?_
        exact hstatement.bind fun _ => roomy_pure _

end RoomForStatements

/-! ## What the grammar derives -/

section Derived

variable {tokens rest : List Token} {tree : Node}

/-- Within some limit that is as large as one likes, a declaration is read. -/
theorem exists_limit_reads (hstmt : Stmt .language .declaration tokens tree)
    (hsettled : Settled tree rest) (reports : List Fault) (limit : Nat) :
    ∃ limit' ≥ limit, declaration (expression limit') (statement limit') ⟨tokens ++ rest, reports⟩ =
      .ok (some tree) ⟨rest, reports⟩ := by
  let bound := (tokens ++ rest).length
  refine ⟨max limit (2 * bound + 3), Nat.le_max_left _ _, ?_⟩
  have hreads := (hstmt.reads (max limit (2 * bound + 3)) rest reports hsettled).recovering
  rw [← declaration_eq_recovering] at hreads
  have hle : 2 * bound + 3 ≤ max limit (2 * bound + 3) := Nat.le_max_right _ _
  have hexpression : Roomy Progress.length bound
      (quietly (expression (max limit (2 * bound + 3)))) :=
    roomy_quietly ((roomy_assignment_unary _ bound).1 (by omega))
  refine hreads.resolve_right ?_
  rintro ⟨left, hdeep⟩
  have hroomy := roomy_declaration hexpression (roomy_statement hle)
  have hsize : Progress.length ⟨tokens ++ rest, reports⟩ ≤ bound := Nat.le_refl bound
  exact (hroomy.error hsize hdeep).1 rfl

/-- A declaration is read, or the parser stops at one of its tokens because the nesting is too deep,
and reports nothing before. -/
theorem reads_or_stops_within (hstmt : Stmt .language .declaration tokens tree)
    (hsettled : Settled tree rest) (reports : List Fault) (limit : Nat) :
    declaration (expression limit) (statement limit) ⟨tokens ++ rest, reports⟩ =
        .ok (some tree) ⟨rest, reports⟩ ∨
      ∃ t ∈ tokens, ∃ tail, declaration (expression limit) (statement limit)
        ⟨tokens ++ rest, reports⟩ = .error .tooDeep ⟨t :: tail, reports⟩ := by
  obtain ⟨limit', hle, hok⟩ := exists_limit_reads hstmt hsettled reports limit
  rcases (curtails_topDeclaration hle).everywhere ⟨tokens ++ rest, reports⟩ with
    hsame | ⟨left, hdeep, hbefore⟩
  · exact .inl (hsame.trans hok)
  · obtain ⟨t, tail, hleft, hforward⟩ := hbefore _ _ hok rfl
    have hstart := (keeps_forward_topDeclaration limit).error (Forward.refl _) hdeep
    have hreports : left.reports = reports :=
      hforward.reports.eq_of_length_le hstart.reports.length_le
    obtain ⟨front, hfront : front ++ rest = tail⟩ := hforward.rest
    obtain ⟨taken, htaken : taken ++ left.rest = tokens ++ rest⟩ := hstart.rest
    have htokens : taken ++ t :: front = tokens := by
      rw [hleft, ← hfront, ← List.cons_append, ← List.append_assoc] at htaken
      exact List.append_cancel_right htaken
    refine .inr ⟨t, by simp [← htokens], tail, ?_⟩
    rw [hdeep, ← hleft, ← hreports]

end Derived

end Parser

end Lox
