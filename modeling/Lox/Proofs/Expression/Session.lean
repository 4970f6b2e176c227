import Lox.Proofs.Expression.Evaluation
import Lox.Proofs.Expression.Program
import Lox.Proofs.Relocation.Session

/-!
# Evaluating is printing

A session can evaluate a text as an expression, or run the program that prints it. The first way
stops at the first error of the text and the second one recovers from it, but they accept the same
texts, and come out alike: the value of the one is what the other prints, or both report the same
error, and they leave the same global variables.

What is evaluated to the null of a document is a value as any other here. Only a tree file can put
it in a variable, and no other expression has this value.
-/

namespace Lox

open Lox.Computation Lox.Action

/-! ## One expression -/

/-- How the evaluation of an expression and the run of the statement that prints it come out: with
one value, which is printed, or with one error that both report, or the nesting is too deep. -/
inductive ComeOut (holds : Value → Prop) (evaluation : Step × Option Value) (run : Step) :
    Prop where
  | value {value : Value} (hvalue : evaluation.2 = some value) (hholds : holds value)
    (hends : evaluation.1.ending = .finished ∧ run.ending = .finished)
    (hreports : reportsOf evaluation.1.events = [] ∧ reportsOf run.events = [])
    (houtput : outputOf run.events = value.display ++ "\n")
    (hglobals : run.session.globals = evaluation.1.session.globals)
  | error (error : RuntimeError) (hnone : evaluation.2 = none)
    (hends : evaluation.1.ending = .finished ∧ run.ending = .finished)
    (hreports : reportsOf evaluation.1.events = [.runtime error] ∧
      reportsOf run.events = [.runtime error])
    (hglobals : run.session.globals = evaluation.1.session.globals)
  | tooDeep (hmessage : Complaint.nesting.message ∈ (reportsOf run.events).map Diagnostic.message)

section Expression

variable {holds : Value → Prop} {session : Session} {tree : Node}

theorem reportsOf_reverse (log : List Event) :
    reportsOf log.reverse = reportsOf (shown log).reverse := by
  rw [← reportsOf_shown, shown_reverse]

theorem outputOf_reverse (log : List Event) :
    outputOf log.reverse = outputOf (shown log).reverse := by
  rw [← outputOf_shown, shown_reverse]

/-- A run of a single statement, by what the statement does. -/
theorem runWithin_single (session : Session) (node : Node) :
    (session.runWithin [] ⟨[node], []⟩).1 =
      let step := topStatement session.setting nestingLimit node ⟨[session.globals], []⟩
      ⟨session.after step.1 step.1.log.reverse, step.1.log.reverse, step.2.getD .finished⟩ := by
  rw [Session.runWithin, Session.runUnder, List.nil_append, interpret]
  generalize topStatement session.setting nestingLimit node _ = step
  obtain ⟨machine, ending⟩ := step
  cases ending <;> rfl

/-- What a print statement does, by how its expression is evaluated. -/
theorem topStatement_print (setting : Setting) (limit : Nat) (tree : Node) (machine : Machine) :
    topStatement setting (limit + 1) (.printStmt tree) machine =
      match evaluate setting limit tree
        (machine.trace setting 1 fun _ => "execute " ++ (Node.printStmt tree).typeName) with
      | .ok value after => (after.note (.printed value.display), none)
      | .error (.error error) after => (after.fail setting error, none)
      | .error .tooDeep after =>
        (after.fail setting (.nestingTooDeep (Node.printStmt tree).line), none)
      | .error (.fault fault) after => (after, some (.faulted fault))
      | .error .outOfTurns after => (after, some .unfinished) := by
  rw [topStatement, execute_printStmt]
  cases hrun : evaluate setting limit tree _ with
  | ok value after =>
    rw [bind_of_ok hrun]
    rfl
  | error halt after =>
    rw [bind_of_error hrun]
    cases halt <;> rfl

theorem globals_after (session : Session) {machine machine' : Machine} (events events' : List Event)
    (hscopes : machine'.scopes = machine.scopes) :
    (session.after machine events).globals = (session.after machine' events').globals := by
  rw [Session.after, Session.after, hscopes]

/-- The expression of a source text and the statement that prints it come out alike. -/
theorem comeOut_of_isExpr (hproper : ∀ value : Value, value.isProper = true → holds value)
    (hglobals : Scopes.All holds [session.globals])
    (htree : tree.IsExpr Token.Spelled (Value.isProper · = true)) :
    ComeOut holds (session.evaluateNode tree)
      (session.runWithin [] ⟨[.printStmt tree], []⟩).1 := by
  have hstarted := Machine.shown_trace session.setting 1
    (fun _ => "execute " ++ (Node.printStmt tree).typeName) ⟨[session.globals], []⟩
  have hend := @agree_evaluate holds session.setting hproper 999 tree htree
    (Machine.trace session.setting 1 (fun _ => "execute " ++ (Node.printStmt tree).typeName)
      ⟨[session.globals], []⟩) ⟨[session.globals], []⟩ (by rwa [Machine.trace_scopes])
    (by rw [Machine.trace_scopes])
  have hlimit : nestingLimit = 999 + 1 := rfl
  rw [runWithin_single, Session.evaluateNode, Session.evaluateNodeUnder, hlimit, topStatement_print]
  generalize evaluate session.setting 999 tree _ = end₁ at hend
  generalize evaluate session.setting (999 + 1) tree _ = end₂ at hend
  cases hend with
  | @ok value after after' hholds hafter =>
    have hlog : shown after.log = [] := hafter.log.trans hstarted
    have hlog' : shown after'.log = [] := hafter.log'
    have hprinted : shown (after.note (.printed value.display)).log = [.printed value.display] := by
      rw [Machine.note, shown_cons, hlog]
      rfl
    refine .value rfl hholds ⟨rfl, rfl⟩ ⟨?_, ?_⟩ ?_ (globals_after session _ _ hafter.scopes)
    · rw [reportsOf_reverse, hlog']
      rfl
    · rw [reportsOf_reverse, hprinted]
      rfl
    · rw [outputOf_reverse, hprinted]
      simp [outputOf, linesOf, Event.printed?]
  | @error error after after' hafter =>
    have hlog : shown after.log = [] := hafter.log.trans hstarted
    have hlog' : shown after'.log = [] := hafter.log'
    have hscopes : (after'.fail session.setting error).scopes =
        (after.fail session.setting error).scopes := by
      rw [Machine.fail_scopes, Machine.fail_scopes, hafter.scopes]
    refine .error error rfl ⟨rfl, rfl⟩ ⟨?_, ?_⟩ (globals_after session _ _ hscopes)
    · rw [reportsOf_reverse, Machine.shown_fail, hlog']
      rfl
    · rw [reportsOf_reverse, Machine.shown_fail, hlog]
      rfl
  | @tooDeep after other =>
    refine .tooDeep ?_
    rw [reportsOf_reverse, Machine.shown_fail, List.reverse_cons, reportsOf_append, List.map_append]
    exact List.mem_append_right _ List.mem_cons_self

end Expression

/-! ## Texts -/

section Texts

variable {session : Session} {source : String} {tree : Node}

/-- The errors of a source text are reported by its run. -/
theorem errors_subset_reportsOf_run (session : Session) (source : String) :
    (Program.ofSource source).errors ⊆ reportsOf (session.run source).events := by
  intro error hmem
  rw [Session.run, Session.runWithin, Session.runUnder, reportsOf_append]
  refine List.mem_append_left _ (List.mem_filterMap.2 ⟨.reported error, ?_, rfl⟩)
  exact List.mem_map_of_mem hmem

theorem evaluate_of_parsed (hscan : (scan source).errors = [])
    (hparse : parseExpression nestingLimit (scan source).tokens = .ok tree) :
    session.evaluate source = session.evaluateNode tree := by
  simp [Session.evaluate, Session.evaluateUnder, Session.evaluateNode, hscan, hparse]

theorem evaluate_of_refused {error : ParseError} (hscan : (scan source).errors = [])
    (hparse : parseExpression nestingLimit (scan source).tokens = .error error) :
    session.evaluate source = (session.reporting [.parse error], none) := by
  simp [Session.evaluate, Session.evaluateUnder, hscan, hparse]

theorem evaluate_of_scanErrors (hscan : (scan source).errors ≠ []) :
    session.evaluate source = (session.reporting ((scan source).errors.map .scan), none) := by
  simp [Session.evaluate, Session.evaluateUnder, hscan]

theorem isExpr_of_parsed (hparse : parseExpression nestingLimit (scan source).tokens = .ok tree) :
    tree.IsExpr Token.Spelled (Value.isProper · = true) := by
  refine (expr_of_parseExpression hparse).isExpr literals_spelled fun t hmem => ?_
  exact spelled_of_mem_scan ((List.takeWhile_sublist _).subset hmem)

/-- An expression and its program come out alike, if the program does not nest too deeply. -/
theorem comeOut_of_parsed {holds : Value → Prop}
    (hproper : ∀ value : Value, value.isProper = true → holds value)
    (hglobals : Scopes.All holds [session.globals]) (hscan : (scan source).errors = [])
    (hparse : parseExpression nestingLimit (scan source).tokens = .ok tree)
    (hshallow : Complaint.nesting.message ∉
      (reportsOf (session.run (printing source)).events).map Diagnostic.message) :
    (Program.ofSource (printing source)).statements = [.printStmt tree] ∧
      ComeOut holds (session.evaluate source) (session.run (printing source)) := by
  have hprogram : Program.ofSource (printing source) = ⟨[.printStmt tree], []⟩ := by
    refine (ofSource_printing hscan hparse).resolve_right fun hmem => hshallow ?_
    exact (List.map_subset _ (errors_subset_reportsOf_run session _)) hmem
  refine ⟨by rw [hprogram], ?_⟩
  rw [evaluate_of_parsed hscan hparse, Session.run, hprogram]
  exact comeOut_of_isExpr hproper hglobals (isExpr_of_parsed hparse)

/-- A text is an expression if its program is one print statement and no error is reported, unless
the text nests too deeply. -/
theorem parsed_of_printed
    (hshallow : Complaint.nesting.message ∉
      (reportsOf (session.evaluate source).1.events).map Diagnostic.message)
    (hreports : reportsOf (session.run (printing source)).events = [])
    (hstatements : (Program.ofSource (printing source)).statements = [.printStmt tree]) :
    (scan source).errors = [] ∧
      parseExpression nestingLimit (scan source).tokens = .ok tree := by
  have herrors : (Program.ofSource (printing source)).errors = [] := by
    have hsubset := errors_subset_reportsOf_run session (printing source)
    rw [hreports] at hsubset
    exact List.subset_nil.1 hsubset
  have hprogram : Program.ofSource (printing source) = ⟨[.printStmt tree], []⟩ := by
    rw [← hstatements, ← herrors]
  obtain ⟨hscan, hparse⟩ := parseExpression_of_printing hprogram
  refine ⟨hscan, hparse.resolve_right ?_⟩
  rintro ⟨error, hrefused, hcomplaint⟩
  apply hshallow
  rw [evaluate_of_refused hscan hrefused, ← hcomplaint]
  exact List.mem_cons_self

/-- There is a value only where there is an expression. -/
theorem parsed_of_value {value : Value} (hvalue : (session.evaluate source).2 = some value) :
    (scan source).errors = [] ∧
      ∃ tree, parseExpression nestingLimit (scan source).tokens = .ok tree := by
  by_cases hscan : (scan source).errors = []
  · refine ⟨hscan, ?_⟩
    cases hparse : parseExpression nestingLimit (scan source).tokens with
    | ok tree => exact ⟨tree, rfl⟩
    | error error =>
      rw [evaluate_of_refused hscan hparse] at hvalue
      cases hvalue
  · rw [evaluate_of_scanErrors hscan] at hvalue
    cases hvalue

end Texts

/-- Evaluating a text agrees with running the program that prints it, in every session and for every
text for which neither of the two finds the nesting too deep. There is a value just if the program
reports no error and is one print statement; then the program prints that value, both come to their
end and leave the same global variables, and the value is not null unless a variable of the session
is. If the text is an expression but has no value, both report the same error and no other one, and
leave the same global variables. -/
theorem evaluation_agrees_with_print (session : Session) (source : String)
    (hshallow : Complaint.nesting.message ∉
      (reportsOf (session.evaluate source).1.events).map Diagnostic.message)
    (hshallow' : Complaint.nesting.message ∉
      (reportsOf (session.run (printing source)).events).map Diagnostic.message) :
    let evaluation := session.evaluate source
    let run := session.run (printing source)
    ((∃ value, evaluation.2 = some value) ↔
      reportsOf run.events = [] ∧
        ∃ expression, (Program.ofSource (printing source)).statements = [.printStmt expression]) ∧
    (∀ value, evaluation.2 = some value →
      (evaluation.1.ending = .finished ∧ run.ending = .finished) ∧
      reportsOf evaluation.1.events = [] ∧
      outputOf run.events = value.display ++ "\n" ∧
      run.session.globals = evaluation.1.session.globals ∧
      ((∀ entry ∈ session.globals, entry.2 ≠ .null) → value ≠ .null)) ∧
    ((scan source).errors = [] →
      ∀ expression, parseExpression nestingLimit (scan source).tokens = .ok expression →
        evaluation.2 = none →
          ∃ error, reportsOf evaluation.1.events = [.runtime error] ∧
            reportsOf run.events = [.runtime error] ∧
            run.session.globals = evaluation.1.session.globals) := by
  intro evaluation run
  let NotNull (value : Value) : Prop := (∀ entry ∈ session.globals, entry.2 ≠ .null) → value ≠ .null
  have hproper : ∀ value : Value, value.isProper = true → NotNull value := by
    rintro _ hvalue - rfl
    cases hvalue
  have hglobals : Scopes.All NotNull [session.globals] := by
    intro bindings hmem entry hentry hall
    obtain rfl := List.mem_singleton.1 hmem
    exact hall entry hentry
  have hout {tree : Node} (hscan : (scan source).errors = [])
      (hparse : parseExpression nestingLimit (scan source).tokens = .ok tree) :
      (Program.ofSource (printing source)).statements = [.printStmt tree] ∧
        ComeOut NotNull evaluation run :=
    comeOut_of_parsed hproper hglobals hscan hparse hshallow'
  refine ⟨⟨?_, ?_⟩, ?_, ?_⟩
  · rintro ⟨value, hvalue⟩
    obtain ⟨hscan, tree, hparse⟩ := parsed_of_value hvalue
    obtain ⟨hstatements, hout⟩ := hout hscan hparse
    cases hout with
    | value _ _ _ hreports => exact ⟨hreports.2, tree, hstatements⟩
    | error _ hnone => cases hvalue.symm.trans hnone
    | tooDeep hmessage => exact absurd hmessage hshallow'
  · rintro ⟨hreports, tree, hstatements⟩
    obtain ⟨hscan, hparse⟩ := parsed_of_printed hshallow hreports hstatements
    cases (hout hscan hparse).2 with
    | value hvalue => exact ⟨_, hvalue⟩
    | error _ _ _ hreported => cases hreports.symm.trans hreported.2
    | tooDeep hmessage => exact absurd hmessage hshallow'
  · intro value hvalue
    obtain ⟨hscan, tree, hparse⟩ := parsed_of_value hvalue
    cases (hout hscan hparse).2 with
    | value hown hholds hends hreports houtput hsame =>
      cases hvalue.symm.trans hown
      exact ⟨hends, hreports.1, houtput, hsame, hholds⟩
    | error _ hnone => cases hvalue.symm.trans hnone
    | tooDeep hmessage => exact absurd hmessage hshallow'
  · intro hscan tree hparse hnone
    cases (hout hscan hparse).2 with
    | value hvalue => cases hnone.symm.trans hvalue
    | error error _ _ hreports hsame => exact ⟨error, hreports.1, hreports.2, hsame⟩
    | tooDeep hmessage => exact absurd hmessage hshallow'

/-- An assignment with a comment behind it. -/
def commentedAssignment : String := "b = \"a\" + b // ;"

/-- An expression that fails once it has assigned a variable. -/
def failingNegation : String := "-(b = \"lost\")"

theorem evaluation_agrees_with_print_assigning :
    Complaint.nesting.message ∉
      (reportsOf (tracedSession.evaluate commentedAssignment).1.events).map Diagnostic.message ∧
    Complaint.nesting.message ∉
      (reportsOf (tracedSession.run (printing commentedAssignment)).events).map
        Diagnostic.message ∧
    (∃ value, (tracedSession.evaluate commentedAssignment).2 = some value ∧ value ≠ .null ∧
      outputOf (tracedSession.run (printing commentedAssignment)).events = value.display ++ "\n") ∧
    ∃ error, reportsOf (tracedSession.evaluate failingNegation).1.events = [.runtime error] ∧
      reportsOf (tracedSession.run (printing failingNegation)).events = [.runtime error] := by
  have hshallow : Complaint.nesting.message ∉
      (reportsOf (tracedSession.evaluate commentedAssignment).1.events).map Diagnostic.message := by
    decide +kernel
  have hshallow' : Complaint.nesting.message ∉
      (reportsOf (tracedSession.run (printing commentedAssignment)).events).map
        Diagnostic.message := by
    decide +kernel
  obtain ⟨-, hvalue, -⟩ :=
    evaluation_agrees_with_print tracedSession commentedAssignment hshallow hshallow'
  obtain ⟨-, -, herror⟩ := evaluation_agrees_with_print tracedSession failingNegation
    (by decide +kernel) (by decide +kernel)
  refine ⟨hshallow, hshallow', ?_, ?_⟩
  · obtain ⟨value, hsome⟩ := Option.isSome_iff_exists.1
      (by decide +kernel : (tracedSession.evaluate commentedAssignment).2.isSome = true)
    obtain ⟨-, -, houtput, -, hnotNull⟩ := hvalue value hsome
    exact ⟨value, hsome, hnotNull (by simp [tracedSession]), houtput⟩
  · have hscan : (scan failingNegation).errors = [] := List.isEmpty_iff.1 (by decide +kernel)
    have hnone : (tracedSession.evaluate failingNegation).2 = none :=
      Option.isNone_iff_eq_none.1 (by decide +kernel)
    have hparse : (parseExpression nestingLimit (scan failingNegation).tokens).isOk = true := by
      decide +kernel
    cases hexpression : parseExpression nestingLimit (scan failingNegation).tokens with
    | ok expression =>
      obtain ⟨error, hreports, hreports', -⟩ := herror hscan expression hexpression hnone
      exact ⟨error, hreports, hreports'⟩
    | error error =>
      rw [hexpression] at hparse
      cases hparse

theorem Value.eq_null_of_typeName {value : Value} (htype : value.typeName = "NoneType") :
    value = .null := by
  cases value with
  | null => rfl
  | _ => simp [typeName, toJson, Json.typeName] at htype

theorem Node.eq_printStmt_of_typeName {node : Node} (htype : node.typeName = "PrintStmt") :
    ∃ expression, node = .printStmt expression := by
  cases node with
  | printStmt expression => exact ⟨expression, rfl⟩
  | _ => simp [typeName] at htype

/-- The tree of a declaration with the null of a document as its initializer, as a tree file may
have it. -/
def nullTree : Node :=
  .program [.varDecl (.token ⟨.identifier, .str "x", .null, 1⟩) (.literal .null)]

/-- A session in which that tree has been run. -/
def nullSession : Session := ((Session.fresh 0).runTree nullTree).session

/-- In such a session a text may be evaluated to null without an error, and be printed. -/
theorem evaluation_of_null :
    Complaint.nesting.message ∉
      (reportsOf (nullSession.evaluate "x").1.events).map Diagnostic.message ∧
    Complaint.nesting.message ∉
      (reportsOf (nullSession.run (printing "x")).events).map Diagnostic.message ∧
    ¬ ((∃ value, value ≠ .null ∧ (nullSession.evaluate "x").2 = some value) ↔
      reportsOf (nullSession.run (printing "x")).events = [] ∧
        ∃ expression, (Program.ofSource (printing "x")).statements = [.printStmt expression]) := by
  have hvalue : (nullSession.evaluate "x").2 = some .null := by
    obtain ⟨value, hvalue, htype⟩ := Option.map_eq_some_iff.1
      (by decide +kernel : (nullSession.evaluate "x").2.map Value.typeName = some "NoneType")
    rw [hvalue, Value.eq_null_of_typeName htype]
  have hreports : reportsOf (nullSession.run (printing "x")).events = [] :=
    List.isEmpty_iff.1 (by decide +kernel)
  have hstatements : ∃ expression,
      (Program.ofSource (printing "x")).statements = [.printStmt expression] := by
    obtain ⟨statement, hstatements, htype⟩ := List.map_eq_singleton_iff.1
      (by decide +kernel :
        (Program.ofSource (printing "x")).statements.map Node.typeName = ["PrintStmt"])
    obtain ⟨expression, rfl⟩ := Node.eq_printStmt_of_typeName htype
    exact ⟨expression, hstatements⟩
  refine ⟨by decide +kernel, by decide +kernel, fun hagrees => ?_⟩
  obtain ⟨value, hnotNull, hother⟩ := hagrees.2 ⟨hreports, hstatements⟩
  rw [hvalue] at hother
  cases hother
  exact hnotNull rfl

end Lox
