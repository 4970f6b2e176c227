import Lox.Proofs.Lookahead.Basic

/-!
# One token ahead in expressions

The parser of expressions looks one token ahead, and the language that it parses is that of the
grammar by its rules alone: any equality may stand to the left of an equals sign.
-/

namespace Lox

open Lox.Computation Grammar

namespace Parser

/-! ## The words of the grammar -/

def exprWords (rank : Rank) : Language Token :=
  {word | ∃ tree, Expr .documented rank word tree}

def operationWords (level : Level) : Language Token :=
  {word | ∃ operations : List Operation,
    (∀ operation ∈ operations, operation.1.kind ∈ level.operators) ∧
    (∀ operation ∈ operations,
      Expr .documented level.operand operation.2.tokens operation.2.tree) ∧
    word = operationTokens operations}

theorem nil_notMem_exprWords (rank : Rank) : [] ∉ exprWords rank := by
  rintro ⟨tree, hexpr⟩
  obtain ⟨t, rest, hnil, -⟩ := hexpr.begins
  cases hnil

theorem nil_mem_operationWords (level : Level) : [] ∈ operationWords level :=
  ⟨[], by simp, by simp, rfl⟩

theorem operation_le_operationWords {level : Level} {kind : Kind} (hkind : kind ∈ level.operators) :
    kindWord kind * (exprWords level.operand * operationWords level) ≤ operationWords level := by
  rintro _ ⟨_, ⟨t, rfl, rfl⟩, _, ⟨word, ⟨tree, hexpr⟩, _, ⟨operations, hkinds, hoperands, rfl⟩, rfl⟩, rfl⟩
  exact ⟨(t, ⟨word, tree⟩) :: operations, List.forall_mem_cons.2 ⟨hkind, hkinds⟩,
    List.forall_mem_cons.2 ⟨hexpr, hoperands⟩, rfl⟩

theorem chain_le_exprWords (level : Level) :
    exprWords level.operand * operationWords level ≤ exprWords (.chain level) := by
  rintro _ ⟨word, ⟨tree, hexpr⟩, _, ⟨operations, hkinds, hoperands, rfl⟩, rfl⟩
  exact ⟨_, .chain level hexpr hkinds hoperands⟩

theorem operand_le_exprWords (level : Level) : exprWords level.operand ≤ exprWords (.chain level) := by
  intro word hword
  have hchain := Language.append_mem_mul hword (nil_mem_operationWords level)
  rw [List.append_nil] at hchain
  exact chain_le_exprWords level hchain

theorem unary_le_exprWords {kind : Kind} (hkind : isUnaryOperator kind = true) :
    kindWord kind * exprWords .unary ≤ exprWords .unary := by
  rintro _ ⟨_, ⟨t, rfl, rfl⟩, word, ⟨tree, hexpr⟩, rfl⟩
  exact ⟨_, .unary (by simpa [isUnaryOperator] using hkind) hexpr⟩

theorem leaf_le_exprWords {t : Token} {leaf : Node} (hleaf : leaf? t = some leaf) :
    kindWord t.kind * 1 ≤ exprWords .unary := by
  rintro _ ⟨_, ⟨u, hkind, rfl⟩, _, rfl, rfl⟩
  have hsome : (leaf? u).isSome = (leaf? t).isSome := by
    unfold leaf?
    rw [hkind]
    cases t.kind <;> rfl
  obtain ⟨other, hother⟩ := Option.isSome_iff_exists.1 (hsome.trans (by rw [hleaf]; rfl))
  exact ⟨other, .primary (leaf?_sound hother)⟩

theorem grouping_le_exprWords :
    kindWord .leftParen * (exprWords .assignment * kindWord .rightParen) ≤ exprWords .unary := by
  rintro _ ⟨_, ⟨opening, hopening, rfl⟩, _, ⟨word, ⟨tree, hexpr⟩, _, ⟨closing, hclosing, rfl⟩, rfl⟩, rfl⟩
  exact ⟨_, .primary (.grouping hopening hclosing hexpr)⟩

/-- The end of an assignment: an equals sign and a value, or nothing. -/
def valueWords : Language Token :=
  kindWord .equal * exprWords .assignment + 1

theorem assignment_le_exprWords :
    exprWords (.chain .equality) * valueWords ≤ exprWords .assignment := by
  rintro _ ⟨before, ⟨target, htarget⟩, after, hafter, rfl⟩
  rcases hafter with ⟨_, ⟨equal, hequal, rfl⟩, word, ⟨value, hvalue⟩, rfl⟩ | hnil
  · exact ⟨_, .assign htarget rfl hequal hvalue⟩
  · obtain rfl := hnil
    exact ⟨target, by simpa using .equality htarget⟩

theorem exprWords_nonempty (rank : Rank) : ∃ word, word ∈ exprWords rank := by
  have hprimary : [⟨.nilWord, .null, .null, 0⟩] ∈ exprWords .primary := ⟨_, .nil rfl⟩
  have hunary : [⟨.nilWord, .null, .null, 0⟩] ∈ exprWords .unary := ⟨_, .primary (.nil rfl)⟩
  have hfactor := operand_le_exprWords .factor hunary
  have hterm := operand_le_exprWords .term hfactor
  have hcomparison := operand_le_exprWords .comparison hterm
  have hequality := operand_le_exprWords .equality hcomparison
  cases rank with
  | primary => exact ⟨_, hprimary⟩
  | unary => exact ⟨_, hunary⟩
  | assignment =>
    obtain ⟨tree, hexpr⟩ := hequality
    exact ⟨_, tree, .equality hexpr⟩
  | chain level =>
    cases level with
    | equality => exact ⟨_, hequality⟩
    | comparison => exact ⟨_, hcomparison⟩
    | term => exact ⟨_, hterm⟩
    | factor => exact ⟨_, hfactor⟩

theorem quietly_bind {α β : Type} (parser : ExprParser α) (next : α → ExprParser β) :
    quietly (parser >>= next) = quietly parser >>= fun a => quietly (next a) := by
  funext s
  cases hrun : parser s.rest with
  | ok a rest =>
    have hquiet : quietly parser s = .ok a ⟨rest, s.reports⟩ := by rw [quietly, hrun]
    rw [bind_of_ok hquiet, quietly, bind_of_ok hrun]
    rfl
  | error halt rest =>
    have hquiet : quietly parser s = .error halt ⟨rest, s.reports⟩ := by rw [quietly, hrun]
    rw [bind_of_error hquiet, quietly, bind_of_error hrun]

theorem quietly_of_eq {α : Type} {parser other : ExprParser α} {tokens rest : List Token}
    (h : parser tokens = other rest) (reports : List Fault) :
    quietly parser ⟨tokens, reports⟩ = quietly other ⟨rest, reports⟩ := by
  simp only [quietly, h]

theorem quietly_of_ok {α : Type} {parser : ExprParser α} {tokens rest : List Token} {a : α}
    (h : parser tokens = .ok a rest) (reports : List Fault) :
    quietly parser ⟨tokens, reports⟩ = .ok a ⟨rest, reports⟩ :=
  quietly_eq_ok.2 ⟨h, rfl⟩

theorem quietly_pure {α : Type} (a : α) : quietly (pure a) = pure a := rfl

/-- As many turns as there are tokens are enough for the operators of a level. -/
theorem chainFrom_count {isOperator : Kind → Bool} {operand : ExprParser Node}
    (hoperand : ∀ base, Keeps (· <:+ base) operand) {count count' : Nat} {tokens : List Token}
    (hcount : tokens.length ≤ count) (hcount' : tokens.length ≤ count') (left : Node) :
    chainFrom isOperator operand count left tokens =
      chainFrom isOperator operand count' left tokens := by
  induction count generalizing count' tokens left with
  | zero =>
    obtain rfl := List.eq_nil_of_length_eq_zero (Nat.le_zero.1 hcount)
    cases count' <;> rfl
  | succ count ih =>
    cases tokens with
    | nil => cases count' <;> rfl
    | cons t rest =>
      rw [List.length_cons] at hcount hcount'
      obtain ⟨count', rfl⟩ : ∃ n, count' = n + 1 := ⟨count' - 1, by omega⟩
      rw [chainFrom, chainFrom, get_bind, get_bind]
      dsimp only
      split
      · rw [set_bind, set_bind]
        cases hrun : operand rest with
        | ok right rest' =>
          have hle := ((hoperand rest).ok List.suffix_rfl hrun).length_le
          rw [bind_of_ok hrun, bind_of_ok hrun]
          exact ih (by omega) (by omega) _
        | error halt rest' => rw [bind_of_error hrun, bind_of_error hrun]
      · rfl

/-- The operators of a level with their operands, from an operand on. -/
def chainTail (isOperator : Kind → Bool) (operand : ExprParser Node) (left : Node) :
    ExprParser Node := fun tokens =>
  chainFrom isOperator operand tokens.length left tokens

theorem chainTail_of_stop {isOperator : Kind → Bool} {operand : ExprParser Node} (left : Node)
    {tokens : List Token} (hstop : beginsWith isOperator tokens = false) :
    chainTail isOperator operand left tokens = .ok left tokens := by
  cases tokens with
  | nil => rfl
  | cons t rest =>
    rw [chainTail, List.length_cons, chainFrom, get_bind]
    dsimp only
    rw [if_neg (show ¬isOperator t.kind = true from Bool.eq_false_iff.1 hstop)]
    rfl

theorem chain_eq_bind (isOperator : Kind → Bool) (operand : ExprParser Node) :
    chain isOperator operand = operand >>= chainTail isOperator operand := by
  unfold chain
  congr 1
  funext left tokens
  rw [get_bind]
  split
  · rfl
  · next hstop => exact (chainTail_of_stop left (Bool.eq_false_iff.2 hstop)).symm

theorem chainTail_cons {isOperator : Kind → Bool} {operand : ExprParser Node}
    (hoperand : ∀ base, Keeps (· <:+ base) operand) (left : Node) {t : Token} (rest : List Token)
    (ht : isOperator t.kind = true) :
    chainTail isOperator operand left (t :: rest) =
      (operand >>= fun right => chainTail isOperator operand (.binary left (.token t) right)) rest := by
  rw [chainTail, List.length_cons, chainFrom, get_bind]
  dsimp only
  rw [if_pos ht, set_bind]
  cases hrun : operand rest with
  | ok right rest' =>
    have hle := ((hoperand rest).ok List.suffix_rfl hrun).length_le
    rw [bind_of_ok hrun, bind_of_ok hrun]
    exact chainFrom_count hoperand hle (Nat.le_refl _) _
  | error halt rest' => rw [bind_of_error hrun, bind_of_error hrun]

theorem SameNext.beginsWith {rest other : List Token} (h : SameNext rest other)
    (accepts : Kind → Bool) : beginsWith accepts rest = beginsWith accepts other := by
  cases rest <;> cases other <;> simp_all [SameNext, Parser.beginsWith]

section Expression

variable {limit : Nat} {tokens : List Token}

theorem keeps_suffix_chainTail {isOperator : Kind → Bool} {operand : ExprParser Node}
    (hsuffix : ∀ base, Keeps (· <:+ base) operand) (left : Node) (base : List Token) :
    Keeps (· <:+ base) (chainTail isOperator operand left) :=
  fun tokens hbase => keeps_suffix_chainFrom (hsuffix base) tokens.length left tokens hbase

theorem predictsAt_chainTail {level : Level} {operand : ExprParser Node}
    (hsuffix : ∀ base, Keeps (· <:+ base) operand)
    (hoperand : Predicts .next (exprWords level.operand) (quietly operand)) (left : Node) :
    PredictsAt .next (operationWords level) (quietly (chainTail (levelTest level) operand left))
      tokens := by
  induction hlength : tokens.length using Nat.strong_induction_on generalizing tokens left with
  | _ length ih =>
  subst hlength
  by_cases hbegins : beginsWith (levelTest level) tokens = true
  · cases tokens with
    | nil => cases hbegins
    | cons t rest =>
      have hkind : t.kind ∈ level.operators := (levelTest_iff level t.kind).1 hbegins
      have hnext : PredictsAt .next (exprWords level.operand * operationWords level)
          (quietly operand >>= fun right =>
            quietly (chainTail (levelTest level) operand (.binary left (.token t) right))) rest := by
        refine (hoperand.everywhere rest).bind (fun right start => ?_) (fun right rest' hright => ?_)
          ⟨[], nil_mem_operationWords level⟩ (fun _ _ _ h => h)
        · exact keeps_forward_quietly fun base => keeps_suffix_chainTail hsuffix _ base
        · obtain ⟨taken, -, rfl, -⟩ := (hoperand.everywhere rest).ok hright
          have hshorter : rest'.length < (t :: (taken ++ rest')).length := by
            rw [List.length_cons, List.length_append]
            omega
          exact ih rest'.length hshorter _ rfl
      refine (hnext.cons fun rest' => ?_).mono (operation_le_operationWords hkind)
      rw [← quietly_bind]
      exact quietly_of_eq (chainTail_cons hsuffix left rest' hbegins) []
  · have hstop : beginsWith (levelTest level) tokens = false := Bool.eq_false_iff.2 hbegins
    have hpure : PredictsAt .next (operationWords level) (pure left : StmtParser Node) tokens := by
      refine ((predicts_pure .next left).everywhere tokens).mono ?_
      rintro _ rfl
      exact nil_mem_operationWords level
    have hsame (tokens' : List Token) (hnext : SameNext tokens tokens') :
        quietly (chainTail (levelTest level) operand left) ⟨tokens', []⟩ =
          (pure left : StmtParser Node) ⟨tokens', []⟩ :=
      quietly_of_eq (chainTail_of_stop left (hnext.beginsWith _ ▸ hstop)) []
    exact hpure.of_same hsame fun _ => hsame

theorem predicts_chain (level : Level) {operand : ExprParser Node}
    (hsuffix : ∀ base, Keeps (· <:+ base) operand)
    (hoperand : Predicts .next (exprWords level.operand) (quietly operand)) :
    Predicts .next (exprWords (.chain level)) (quietly (chain (levelTest level) operand)) := by
  rw [chain_eq_bind, quietly_bind]
  refine (hoperand.bind (fun left => ?_) ⟨[], nil_mem_operationWords level⟩ fun _ _ _ h => h).mono (chain_le_exprWords level)
  exact ⟨fun start => keeps_forward_quietly fun base => keeps_suffix_chainTail hsuffix left base,
    fun tokens => predictsAt_chainTail hsuffix hoperand left⟩

theorem predicts_equality (hunary : Predicts .next (exprWords .unary) (quietly (unary limit))) :
    Predicts .next (exprWords (.chain .equality)) (quietly (equality (unary limit))) := by
  have hsuffix (base : List Token) : Keeps (· <:+ base) (unary limit) :=
    (keeps_suffix_assignment_unary limit).2
  have hfactor := predicts_chain .factor hsuffix hunary
  have hterm := predicts_chain .term (fun _ => keeps_suffix_chain (hsuffix _)) hfactor
  have hcomparison := predicts_chain .comparison
    (fun _ => keeps_suffix_chain (keeps_suffix_chain (hsuffix _))) hterm
  exact predicts_chain .equality
    (fun _ => keeps_suffix_chain (keeps_suffix_chain (keeps_suffix_chain (hsuffix _)))) hcomparison

/-- What may come after the target of an assignment, or after an expression that is none. -/
def assignmentTail (limit : Nat) (target : Node) : ExprParser Node := do
  let found ← get
  if beginsWith (· = .equal) found then
    set found.tail
    let value ← assignment limit
    assignTo target value found
  else pure target

theorem assignment_eq_bind (limit : Nat) :
    assignment (limit + 1) = equality (unary limit) >>= assignmentTail limit := by
  rw [assignment]
  rfl

theorem assignmentTail_of_equal (target : Node) {equal : Token} (hequal : equal.kind = .equal)
    (rest : List Token) :
    assignmentTail limit target (equal :: rest) =
      (assignment limit >>= fun value => assignTo target value (equal :: rest)) rest := by
  rw [assignmentTail, get_bind, if_pos (by simp [beginsWith, hequal])]
  rfl

theorem assignmentTail_of_stop (target : Node) {tokens : List Token}
    (hstop : beginsWith (· = .equal) tokens = false) :
    assignmentTail limit target tokens = .ok target tokens := by
  rw [assignmentTail, get_bind, if_neg (Bool.eq_false_iff.1 hstop)]
  rfl

/-- A complaint about the target of an assignment, found before the value was parsed. -/
def refuse (parser : StmtParser Node) (equal : Token) : StmtParser Node := fun s =>
  (parser >>= fun _ => throw (.fault ⟨equal :: s.rest, .assignmentTarget⟩)) s

theorem PredictsAt.refuse {look : Look} {language : Language Token}
    {parser : StmtParser Node} (h : PredictsAt look language parser tokens) (equal : Token) :
    PredictsAt look language (refuse parser equal) tokens where
  ok hok := by
    obtain ⟨_, _, -, hthrow⟩ := bind_eq_ok.1 hok
    cases hthrow
  fault {fault} hfault hcomplaint := by
    have hearly : firstFault? (parser ⟨tokens, []⟩) = some fault := by
      cases hrun : parser ⟨tokens, []⟩ with
      | ok value s =>
        rw [Parser.refuse, bind_of_ok hrun] at hfault
        change (_ :: s.reports).getLast? = some fault at hfault
        change s.reports.getLast? = some fault
        rw [List.getLast?_cons] at hfault
        cases hreports : s.reports.getLast? with
        | some first =>
          rw [hreports] at hfault
          exact hfault
        | none =>
          rw [hreports] at hfault
          cases hfault
          exact absurd rfl hcomplaint
      | error halt s =>
        rw [Parser.refuse, bind_of_error hrun] at hfault
        cases halt <;> exact hfault
    obtain ⟨taken, htokens, hviable, hlocal⟩ := h.fault hearly hcomplaint
    exact ⟨taken, htokens, hviable, fun other hother =>
      firstFault?_bind (fun _ _ => keeps_throw _) (hlocal other hother)⟩

theorem predictsAt_assignmentTail
    (hassignment : Predicts .next (exprWords .assignment) (quietly (assignment limit)))
    (target : Node) :
    PredictsAt .next valueWords (quietly (assignmentTail limit target)) tokens := by
  by_cases hbegins : beginsWith (· = .equal) tokens = true
  · cases tokens with
    | nil => cases hbegins
    | cons t rest =>
      have hequal : t.kind = .equal := of_decide_eq_true hbegins
      have hle : kindWord t.kind * exprWords .assignment ≤ valueWords := by
        rw [hequal]
        exact fun _ hword => .inl hword
      have hrest := hassignment.everywhere rest
      cases target with
      | varRef name =>
        have hvalue := (hassignment.map (Node.assign name)).everywhere rest
        refine (hvalue.cons fun rest' => ?_).mono hle
        rw [quietly_of_eq (assignmentTail_of_equal _ hequal rest'), quietly_bind]
        rfl
      | _ =>
        refine ((hrest.refuse t).cons fun rest' => ?_).mono hle
        rw [quietly_of_eq (assignmentTail_of_equal _ hequal rest'), quietly_bind]
        rfl
  · have hstop : beginsWith (· = .equal) tokens = false := Bool.eq_false_iff.2 hbegins
    have hpure : PredictsAt .next valueWords (pure target : StmtParser Node) tokens := by
      refine ((predicts_pure .next target).everywhere tokens).mono ?_
      rintro _ rfl
      exact .inr rfl
    have hsame (tokens' : List Token) (hnext : SameNext tokens tokens') :
        quietly (assignmentTail limit target) ⟨tokens', []⟩ =
          (pure target : StmtParser Node) ⟨tokens', []⟩ :=
      quietly_of_eq
        (assignmentTail_of_stop target (hnext.beginsWith _ ▸ hstop)) []
    exact hpure.of_same hsame fun _ => hsame

theorem keeps_suffix_assignmentTail (target : Node) (base : List Token) :
    Keeps (· <:+ base) (assignmentTail limit target) := by
  intro tokens hsuffix
  rw [assignmentTail, get_bind]
  split
  · rw [set_bind]
    exact (keeps_suffix_assignment_unary limit).1.bind (fun _ => keeps_suffix_assignTo _ _ _) _
      ((List.tail_suffix tokens).trans hsuffix)
  · exact hsuffix

theorem predicts_assignment
    (hunary : Predicts .next (exprWords .unary) (quietly (unary limit)))
    (hassignment : Predicts .next (exprWords .assignment) (quietly (assignment limit))) :
    Predicts .next (exprWords .assignment) (quietly (assignment (limit + 1))) := by
  rw [assignment_eq_bind, quietly_bind]
  refine ((predicts_equality hunary).bind (fun target => ?_) ⟨[], .inr rfl⟩ fun _ _ _ h => h).mono assignment_le_exprWords
  exact ⟨fun _ => keeps_forward_quietly fun base => keeps_suffix_assignmentTail target base,
    fun _ => predictsAt_assignmentTail hassignment target⟩

theorem unary_of_operator {t : Token} (ht : isUnaryOperator t.kind = true) (rest : List Token) :
    unary (limit + 1) (t :: rest) =
      (unary limit >>= fun right => pure (.unary (.token t) right)) rest := by
  rw [unary, get_bind]
  dsimp only
  rw [if_pos ht, set_bind]

theorem unary_of_paren {t : Token} (ht : t.kind = .leftParen) (rest : List Token) :
    unary (limit + 1) (t :: rest) = (assignment limit >>= fun inner =>
      expect .rightParen .parenAfterExpression >>= fun _ => pure (.grouping inner)) rest := by
  rw [unary, get_bind]
  dsimp only
  rw [if_neg (by rw [ht]; decide), if_pos ht, set_bind]

theorem unary_of_leaf {t : Token} {leaf : Node} (hleaf : leaf? t = some leaf) (rest : List Token) :
    unary (limit + 1) (t :: rest) = .ok leaf rest := by
  obtain ⟨hoperator, hparen⟩ := leaf?_kind hleaf
  rw [unary, get_bind]
  dsimp only
  rw [if_neg (Bool.eq_false_iff.1 hoperator), if_neg hparen, hleaf]
  rfl

theorem unary_of_other {t : Token} (hoperator : ¬isUnaryOperator t.kind = true)
    (hparen : t.kind ≠ .leftParen) (hleaf : leaf? t = none) (rest : List Token) :
    unary (limit + 1) (t :: rest) = .error (.fault ⟨t :: rest, .expression⟩) (t :: rest) := by
  rw [unary, get_bind]
  dsimp only
  rw [if_neg hoperator, if_neg hparen, hleaf]
  rfl

theorem predicts_unary
    (hunary : Predicts .next (exprWords .unary) (quietly (unary limit)))
    (hassignment : Predicts .next (exprWords .assignment) (quietly (assignment limit))) :
    Predicts .next (exprWords .unary) (quietly (unary (limit + 1))) where
  keeps start := keeps_forward_quietly fun _ => (keeps_suffix_assignment_unary (limit + 1)).2
  everywhere tokens := by
    have hcomplain (tokens : List Token) : PredictsAt .next (exprWords .unary)
        (complain .expression : StmtParser Node) tokens :=
      predictsAt_complain .expression (exprWords_nonempty .unary)
    cases tokens with
    | nil =>
      refine (hcomplain []).of_same (fun tokens' hnext => ?_)
        fun hnil => absurd hnil (nil_notMem_exprWords .unary)
      cases tokens' with
      | nil => rfl
      | cons t rest => cases hnext
    | cons t rest =>
      by_cases hoperator : isUnaryOperator t.kind = true
      · have hright := (hunary.map (Node.unary (.token t))).everywhere rest
        refine (hright.cons fun rest' => ?_).mono (unary_le_exprWords hoperator)
        rw [quietly_of_eq (unary_of_operator hoperator rest'), quietly_bind]
        rfl
      by_cases hparen : t.kind = .leftParen
      · have hinner := (hassignment.bind (fun inner => (predicts_expect .next .rightParen
          .parenAfterExpression).map fun _ => Node.grouping inner)
          (kindWord_nonempty .rightParen) fun _ _ _ h => h).everywhere rest
        refine (hinner.cons fun rest' => ?_).mono (hparen ▸ grouping_le_exprWords)
        rw [quietly_of_eq (unary_of_paren hparen rest')]
        simp only [quietly_bind, quietly_pure]
      cases hleaf : leaf? t with
      | some leaf =>
        have hpure := (predicts_pure .next leaf).everywhere rest
        refine (hpure.cons fun rest' => ?_).mono (leaf_le_exprWords hleaf)
        exact quietly_of_eq (unary_of_leaf hleaf rest') []
      | none =>
        refine (hcomplain (t :: rest)).of_same (fun tokens' hnext => ?_)
          fun hnil => absurd hnil (nil_notMem_exprWords .unary)
        cases tokens' with
        | nil => cases hnext
        | cons u rest' =>
          obtain rfl : t = u := Option.some.inj hnext
          exact quietly_of_eq
            (unary_of_other hoperator hparen hleaf rest') []

theorem predicts_expression (limit : Nat) :
    Predicts .next (exprWords .assignment) (quietly (expression limit)) := by
  have hboth : Predicts .next (exprWords .unary) (quietly (unary limit)) ∧
      Predicts .next (exprWords .assignment) (quietly (assignment limit)) := by
    induction limit with
    | zero => exact ⟨predicts_tooDeep _ _, predicts_tooDeep _ _⟩
    | succ limit ih => exact ⟨predicts_unary ih.1 ih.2, predicts_assignment ih.1 ih.2⟩
  exact hboth.2

end Expression

end Parser

end Lox
