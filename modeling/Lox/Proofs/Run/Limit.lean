import Lox.Session
import Lox.Proofs.Parser.Limit
import Lox.Proofs.Relocation.Session

/-!
# Runs within a limit of nesting

With less room for nesting, an evaluation or a statement does the same as with more, or it stops
because the nesting is too deep (`Curbs`): neither a block nor a loop goes on after that. The parser
is alike, and no declaration inside a block is recovered from there. So nesting that is too deep
always ends the whole statement at the top level, where it is reported, and as long as nothing of the
kind is reported more room changes nothing at all (`nesting_limit_is_transparent`).
-/

namespace Lox

open Lox.Computation Lox.Action

/-! ## Actions with less room -/

/-- An action does the same as another one, or it stops because the nesting is too deep. -/
def Curbs {α : Type} (action whole : Action α) : Prop :=
  ∀ machine, action machine = whole machine ∨ ∃ after, action machine = .error .tooDeep after

section Rules

variable {α β : Type} {action whole : Action α}

theorem curbs_refl (action : Action α) : Curbs action action :=
  fun _ => .inl rfl

theorem curbs_tooDeep (whole : Action α) : Curbs (throw .tooDeep) whole :=
  fun machine => .inr ⟨machine, rfl⟩

theorem Curbs.bind {next next' : α → Action β} (haction : Curbs action whole)
    (hnext : ∀ a, Curbs (next a) (next' a)) : Curbs (action >>= next) (whole >>= next') := by
  intro machine
  rcases haction machine with hsame | ⟨after, hdeep⟩
  · cases hrun : whole machine with
    | ok a after =>
      rw [bind_of_ok (hsame.trans hrun), bind_of_ok hrun]
      exact hnext a after
    | error halt after =>
      rw [bind_of_error (hsame.trans hrun), bind_of_error hrun]
      exact .inl rfl
  · exact .inr ⟨after, bind_of_error hdeep next⟩

theorem Curbs.andThen (haction : Curbs action whole) (next : α → Action β) :
    Curbs (action >>= next) (whole >>= next) :=
  haction.bind fun a => curbs_refl (next a)

theorem Curbs.traced {setting : Setting} {node : Node} {evaluation evaluation' : Action Value}
    (hevaluation : Curbs evaluation evaluation') :
    Curbs (traced setting node evaluation) (traced setting node evaluation') :=
  hevaluation.andThen _

/-- The scope of a block is dropped, but what stopped the block goes on. -/
theorem Curbs.inScope (haction : Curbs action whole) : Curbs (inScope action) (inScope whole) := by
  intro machine
  rw [Action.inScope, Action.inScope]
  rcases haction { machine with scopes := [] :: machine.scopes } with hsame | ⟨after, hdeep⟩
  · rw [hsame]
    exact .inl rfl
  · rw [hdeep]
    exact .inr ⟨{ after with scopes := after.scopes.tail }, rfl⟩

theorem curbs_repeatWhile {condition condition' : Action Bool} {body body' : Action Unit}
    (hcondition : Curbs condition condition') (hbody : Curbs body body') (turns : Nat) :
    Curbs (repeatWhile condition body turns) (repeatWhile condition' body' turns) := by
  induction turns with
  | zero => exact curbs_refl _
  | succ turns ih =>
    refine hcondition.bind fun holds => ?_
    cases holds with
    | true => exact hbody.bind fun _ => ih
    | false => exact curbs_refl _

theorem curbs_forM {run run' : Node → Action Unit} (hrun : ∀ node, Curbs (run node) (run' node))
    (statements : List Node) : Curbs (statements.forM run) (statements.forM run') := by
  induction statements with
  | nil => exact curbs_refl _
  | cons node rest ih =>
    rw [List.forM_eq_forM, List.forM_cons, List.forM_cons]
    exact (hrun node).bind fun _ => ih

end Rules

section Trees

variable (setting : Setting) {limit limit' : Nat}

theorem curbs_evaluate (hle : limit ≤ limit') (node : Node) :
    Curbs (evaluate setting limit node) (evaluate setting limit' node) := by
  induction limit generalizing limit' node with
  | zero => exact curbs_tooDeep _
  | succ limit ih =>
    obtain ⟨limit', rfl⟩ : ∃ n, limit' = n + 1 := ⟨limit' - 1, by omega⟩
    have hpart (node : Node) : Curbs (evaluate setting limit node) (evaluate setting limit' node) :=
      ih (Nat.le_of_succ_le_succ hle) node
    cases node with
    | grouping inner =>
      rw [evaluate_grouping, evaluate_grouping]
      exact (hpart inner).traced
    | assign name value =>
      rw [evaluate_assign, evaluate_assign]
      exact ((hpart value).andThen _).traced
    | unary operator right =>
      rw [evaluate_unary, evaluate_unary]
      exact ((hpart right).andThen _).traced
    | binary left operator right =>
      rw [evaluate_binary, evaluate_binary]
      exact ((hpart left).bind fun _ => (hpart right).andThen _).traced
    | _ => exact curbs_refl _

theorem curbs_evaluateInitializer (hle : limit ≤ limit') (node : Node) :
    Curbs (evaluateInitializer setting limit node) (evaluateInitializer setting limit' node) := by
  by_cases hnode : node = .absent
  · subst hnode
    exact curbs_refl _
  · rw [evaluateInitializer_of_ne_absent _ _ hnode, evaluateInitializer_of_ne_absent _ _ hnode]
    exact curbs_evaluate setting hle node

theorem curbs_execute (hle : limit ≤ limit') (node : Node) :
    Curbs (execute setting limit node) (execute setting limit' node) := by
  induction limit generalizing limit' node with
  | zero => exact curbs_tooDeep _
  | succ limit ih =>
    obtain ⟨limit', rfl⟩ : ∃ n, limit' = n + 1 := ⟨limit' - 1, by omega⟩
    have hle : limit ≤ limit' := Nat.le_of_succ_le_succ hle
    have hpart (node : Node) : Curbs (execute setting limit node) (execute setting limit' node) :=
      ih hle node
    have hvalue := curbs_evaluate setting hle
    cases node with
    | exprStmt expression =>
      rw [execute_exprStmt, execute_exprStmt]
      exact (hvalue expression).andThen _
    | printStmt expression =>
      rw [execute_printStmt, execute_printStmt]
      exact (hvalue expression).andThen _
    | varDecl name initializer =>
      rw [execute_varDecl, execute_varDecl]
      exact (curbs_evaluateInitializer setting hle initializer).andThen _
    | block statements =>
      rw [execute_block, execute_block]
      refine Curbs.inScope fun machine => ?_
      rw [blockBody, get_bind, blockBody, get_bind]
      have hstatements := (curbs_forM hpart statements).andThen fun _ =>
        trace setting 3 fun _ => "leave block at depth " ++ toString machine.scopes.depth
      exact ((curbs_refl _).bind fun _ => hstatements) machine
    | ifStmt condition thenBranch elseBranch =>
      by_cases helse : elseBranch = .absent
      · subst helse
        rw [execute_ifThen, execute_ifThen]
        refine (hvalue condition).bind fun value => (curbs_refl _).bind fun _ => ?_
        split
        · exact hpart thenBranch
        · exact curbs_refl _
      · rw [execute_ifElse _ _ _ _ helse, execute_ifElse _ _ _ _ helse]
        refine (hvalue condition).bind fun value => (curbs_refl _).bind fun _ => ?_
        split
        · exact hpart thenBranch
        · exact hpart elseBranch
    | whileStmt condition body =>
      rw [execute_whileStmt, execute_whileStmt]
      exact curbs_repeatWhile ((hvalue condition).andThen _) (hpart body) setting.turns
    | _ => exact curbs_refl _

/-! ## Programs with more room -/

/-- A statement at the top level that nests too deeply is reported, and so it is still when the program
has ended. -/
theorem interpret_reports_nesting {limit : Nat} {node : Node} {machine after : Machine}
    (hscopes : machine.scopes ≠ [])
    (hdeep : execute setting limit node
      (machine.trace setting 1 fun _ => "execute " ++ node.typeName) = .error .tooDeep after)
    (rest : List Node) :
    .reported (.runtime (.nestingTooDeep node.line)) ∈
      shown (interpret setting limit (node :: rest) machine).2.log := by
  have hstep : topStatement setting limit node machine =
      (after.fail setting (.nestingTooDeep node.line), none) := by
    rw [topStatement, hdeep]
  have hextends := topStatement_extends setting limit node hscopes
  rw [hstep] at hextends
  have hlog := (interpret_extends setting limit rest (hextends.scopes_ne_nil hscopes)).log
  rw [interpret, hstep]
  refine hlog.subset ?_
  rw [Machine.shown_fail]
  exact List.mem_cons_self

theorem interpret_limit (hle : limit ≤ limit') {statements : List Node} {machine : Machine}
    (hscopes : machine.scopes ≠ [])
    (hdeep : ∀ line, .reported (.runtime (.nestingTooDeep line)) ∉
      shown (interpret setting limit statements machine).2.log) :
    interpret setting limit' statements machine = interpret setting limit statements machine := by
  induction statements generalizing machine with
  | nil => rfl
  | cons node rest ih =>
    have hsame : topStatement setting limit' node machine =
        topStatement setting limit node machine := by
      rcases curbs_execute setting hle node
        (machine.trace setting 1 fun _ => "execute " ++ node.typeName) with hsame | ⟨after, hrun⟩
      · rw [topStatement, topStatement, hsame]
      · exact absurd (interpret_reports_nesting setting hscopes hrun rest) (hdeep node.line)
    have hextends := topStatement_extends setting limit node hscopes
    rw [interpret] at hdeep
    rw [interpret, interpret, hsame]
    generalize topStatement setting limit node machine = step at hextends hdeep
    obtain ⟨after, ending⟩ := step
    cases ending with
    | none => exact ih (hextends.scopes_ne_nil hscopes) hdeep
    | some ending => rfl

end Trees

/-! ## Parsing with more room -/

namespace Parser

theorem eq_of_quietly_eq {α : Type} {parser parser' : ExprParser α} {tokens : List Token}
    {reports : List Fault} (h : quietly parser ⟨tokens, reports⟩ = quietly parser' ⟨tokens, reports⟩) :
    parser tokens = parser' tokens := by
  rw [quietly, quietly] at h
  cases hrun : parser tokens <;> cases hrun' : parser' tokens <;> simp_all

/-- A declaration at the top level that nests too deeply is reported. -/
theorem topLevel_reports_nesting {limit : Nat} {s left : Progress} (hrest : s.rest ≠ [])
    (hdeep : declaration (expression limit) (statement limit) s = .error .tooDeep left)
    (count : Nat) : ∃ fault ∈ (topLevel limit (count + 1) s).2, fault.complaint = .nesting := by
  have hreported := (reports_suffix_topLevel limit count
    ⟨skipStatement 0 s.rest, ⟨left.rest, .nesting⟩ :: left.reports⟩).subset List.mem_cons_self
  rw [topLevel_of_tooDeep hrest hdeep]
  exact ⟨_, hreported, rfl⟩

theorem topLevel_limit {limit limit' : Nat} (hle : limit ≤ limit') {count : Nat} {s : Progress}
    (hnesting : ∀ fault ∈ (topLevel limit count s).2, fault.complaint ≠ .nesting) :
    topLevel limit' count s = topLevel limit count s := by
  induction count generalizing s with
  | zero => rfl
  | succ count ih =>
    by_cases hrest : s.rest = []
    · obtain ⟨rest, reports⟩ := s
      subst hrest
      rw [topLevel_nil, topLevel_nil]
    have hshallow (left : Progress) :
        declaration (expression limit) (statement limit) s ≠ .error .tooDeep left := by
      intro hdeep
      obtain ⟨fault, hmem, hcomplaint⟩ := topLevel_reports_nesting hrest hdeep count
      exact hnesting fault hmem hcomplaint
    rcases (curtails_topDeclaration hle).everywhere s with hsame | ⟨left, hdeep, -⟩
    · cases hrun : declaration (expression limit) (statement limit) s with
      | ok result after =>
        rw [topLevel_of_ok hrest hrun] at hnesting
        rw [topLevel_of_ok hrest hrun, topLevel_of_ok hrest (hsame.symm.trans hrun), ih hnesting]
      | error halt after =>
        cases halt with
        | fault fault => exact absurd hrun declaration_ne_fault
        | tooDeep => exact absurd hrun (hshallow after)
    · exact absurd hdeep (hshallow left)

end Parser

open Lox.Parser

/-- As long as no nesting is reported, a parse with more room is the same. -/
theorem parse_limit {limit limit' : Nat} (hle : limit ≤ limit') {tokens : List Token}
    (hnesting : ∀ error ∈ (parse limit tokens).errors, error.complaint ≠ .nesting) :
    parse limit' tokens = parse limit tokens := by
  have hfaults : ∀ fault ∈ (topLevel limit (beforeEnd tokens).1.length ⟨(beforeEnd tokens).1, []⟩).2,
      fault.complaint ≠ .nesting := fun fault hmem =>
    hnesting (fault.toError (beforeEnd tokens).2) (List.mem_map_of_mem (List.mem_reverse.2 hmem))
  rw [parse, topLevel_limit hle hfaults]
  rfl

theorem parseExpression_limit {limit limit' : Nat} (hle : limit ≤ limit') {tokens : List Token}
    (hnesting : ∀ error, parseExpression limit tokens = .error error →
      error.complaint ≠ .nesting) :
    parseExpression limit' tokens = parseExpression limit tokens := by
  rcases (curtails_expression hle).everywhere ⟨(beforeEnd tokens).1, []⟩ with
    hsame | ⟨left, hdeep, -⟩
  · rw [parseExpression, parseExpression, eq_of_quietly_eq hsame]
  · obtain ⟨rest, hrun⟩ : ∃ rest, expression limit (beforeEnd tokens).1 = .error .tooDeep rest := by
      rw [quietly] at hdeep
      cases hrun : expression limit (beforeEnd tokens).1 <;> simp_all
    have herror : parseExpression limit tokens =
        .error (Fault.toError ⟨rest, .nesting⟩ (beforeEnd tokens).2) := by
      rw [parseExpression, hrun]
    exact absurd rfl (hnesting _ herror)

/-! ## Sessions with a limit of nesting -/

namespace Session

variable {limit limit' : Nat} {session : Session}

theorem reportsOf_runUnder (limit : Nat) (session : Session) (inner : Scopes) (program : Program) :
    reportsOf (session.runUnder limit inner program).1.events =
      program.errors ++ reportsOf (interpret session.setting limit program.statements
        ⟨inner ++ [session.globals], []⟩).2.log.reverse := by
  rw [← reportsOf_map_reported program.errors, ← reportsOf_append]
  rfl

theorem evaluateNodeUnder_limit (hle : limit ≤ limit') {node : Node}
    (hdeep : ∀ line, .runtime (.nestingTooDeep line) ∉
      reportsOf (session.evaluateNodeUnder limit node).1.events) :
    session.evaluateNodeUnder limit' node = session.evaluateNodeUnder limit node := by
  rcases curbs_evaluate session.setting hle node ⟨[session.globals], []⟩ with hsame | ⟨after, hrun⟩
  · rw [evaluateNodeUnder, evaluateNodeUnder, hsame]
  · refine absurd ?_ (hdeep node.line)
    rw [evaluateNodeUnder, hrun, ← reportsOf_shown, shown_reverse, Machine.shown_fail]
    simp [reportsOf, Event.reported?]

end Session

/-- Within the smaller limit, nesting that is too deep ends a whole declaration or statement, however
far inside it is met, and at the top level it is reported. -/
structure Surfaces (setting : Setting) (limit limit' : Nat) : Prop where
  stopsDeclaration : ∀ s, declaration (expression limit) (statement limit) s =
      declaration (expression limit') (statement limit') s ∨
    ∃ left, declaration (expression limit) (statement limit) s = .error .tooDeep left
  reportedParsing : ∀ s left, s.rest ≠ [] →
    declaration (expression limit) (statement limit) s = .error .tooDeep left →
      ∀ count, ∃ fault ∈ (topLevel limit (count + 1) s).2, fault.complaint = .nesting
  stopsStatement : ∀ node machine, execute setting limit node machine =
      execute setting limit' node machine ∨
    ∃ after, execute setting limit node machine = .error .tooDeep after
  reportedRunning : ∀ node machine after, machine.scopes ≠ [] →
    execute setting limit node (machine.trace setting 1 fun _ => "execute " ++ node.typeName) =
      .error .tooDeep after →
      ∀ rest, .runtime (.nestingTooDeep node.line) ∈
        reportsOf (interpret setting limit (node :: rest) machine).2.log

theorem surfaces (setting : Setting) {limit limit' : Nat} (hle : limit ≤ limit') :
    Surfaces setting limit limit' where
  stopsDeclaration s := by
    rcases (curtails_topDeclaration hle).everywhere s with hsame | ⟨left, hdeep, -⟩
    · exact .inl hsame
    · exact .inr ⟨left, hdeep⟩
  reportedParsing _ _ hrest hdeep count := topLevel_reports_nesting hrest hdeep count
  stopsStatement := curbs_execute setting hle
  reportedRunning node machine after hscopes hdeep rest := by
    rw [← reportsOf_shown]
    exact List.mem_filterMap.2 ⟨_, interpret_reports_nesting setting hscopes hdeep rest, rfl⟩

/-- As long as nothing nests too deeply, the limit of nesting plays no part. Let a source text be
parsed and run, or an expression parsed and evaluated, within a limit and from any variables, and let
no "Too much nesting." be reported. Then within any larger limit the program is the same, and so are
the errors, what is printed and traced, the variables and how the run ends. For nesting that is too
deep is not taken up again from inside a statement, but ends it as a whole and is reported then. -/
theorem nesting_limit_is_transparent {limit limit' : Nat} (hle : limit ≤ limit')
    (session : Session) (inner : Scopes) (source : String) :
    ((∀ error ∈ reportsOf (session.runUnder limit inner (.under limit source)).1.events,
        error.message ≠ "Too much nesting.") →
      Program.under limit' source = Program.under limit source ∧
        session.runUnder limit' inner (.under limit' source) =
          session.runUnder limit inner (.under limit source)) ∧
    ((∀ error ∈ reportsOf (session.evaluateUnder limit source).1.events,
        error.message ≠ "Too much nesting.") →
      session.evaluateUnder limit' source = session.evaluateUnder limit source) ∧
    Surfaces session.setting limit limit' := by
  refine ⟨fun hmessages => ?_, fun hmessages => ?_, surfaces session.setting hle⟩
  · rw [Session.reportsOf_runUnder, List.forall_mem_append] at hmessages
    obtain ⟨hparsing, hrunning⟩ := hmessages
    have hparse : parse limit' (scan source).tokens = parse limit (scan source).tokens := by
      refine parse_limit hle fun error hmem hnesting => ?_
      refine hparsing (.parse error) (List.mem_append_right _ (List.mem_map_of_mem hmem)) ?_
      exact congrArg Complaint.message hnesting
    have hprogram : Program.under limit' source = Program.under limit source := by
      rw [Program.under, hparse]
      rfl
    have hrun : interpret session.setting limit' (Program.under limit source).statements
          ⟨inner ++ [session.globals], []⟩ =
        interpret session.setting limit (Program.under limit source).statements
          ⟨inner ++ [session.globals], []⟩ := by
      refine interpret_limit session.setting hle (by simp) fun line hmem => ?_
      rw [← reportsOf_shown] at hrunning
      refine hrunning (.runtime (.nestingTooDeep line)) ?_ rfl
      rw [shown_reverse]
      exact List.mem_filterMap.2 ⟨_, List.mem_reverse.2 hmem, rfl⟩
    refine ⟨hprogram, ?_⟩
    rw [hprogram, Session.runUnder, hrun]
    rfl
  · rw [Session.evaluateUnder, Session.evaluateUnder]
    rw [Session.evaluateUnder] at hmessages
    cases hscan : (scan source).errors.isEmpty with
    | false => rfl
    | true =>
      rw [hscan, if_pos rfl] at hmessages
      have hparse : parseExpression limit' (scan source).tokens =
          parseExpression limit (scan source).tokens := by
        refine parseExpression_limit hle fun error herror hnesting => ?_
        rw [herror] at hmessages
        exact hmessages (.parse error) List.mem_cons_self (congrArg Complaint.message hnesting)
      rw [if_pos rfl, if_pos rfl, hparse]
      cases hresult : parseExpression limit (scan source).tokens with
      | error error => rfl
      | ok node =>
        rw [hresult] at hmessages
        exact Session.evaluateNodeUnder_limit hle fun line hmem => hmessages _ hmem rfl

/-- A block with a declaration that is broken, and a statement that fails inside it. -/
def brokenInside : String := "{ var ; a = a + 1;
print a + nil; } print a;"

theorem nesting_limit_is_transparent_brokenInside :
    6 ≤ nestingLimit ∧
      (reportsOf ((Session.fresh 2).runUnder 6 [[("a", .number 1)]]
        (.under 6 brokenInside)).1.events).map Diagnostic.message = ["Expect variable name.",
          "Operands must be two numbers or two strings. (operator '+')"] ∧
      (Session.fresh 2).runWithin [[("a", .number 1)]] (.ofSource brokenInside) =
        (Session.fresh 2).runUnder 6 [[("a", .number 1)]] (.under 6 brokenInside) := by
  refine ⟨by decide, by decide +kernel, ?_⟩
  have hsame := nesting_limit_is_transparent (show 6 ≤ nestingLimit by decide) (Session.fresh 2)
    [[("a", .number 1)]] brokenInside
  exact (hsame.1 (by decide +kernel)).2

end Lox
