import Lox.Proofs.CommandLine.Emit
import Lox.Proofs.Expression.Session

/-!
# Statuses and reports

The status of a command tells what it has reported. For a script it tells the worst kind of error:
one of the source counts more than one of the run, and success means that there was none, so that
nothing was written among the errors. An expression has a value and shows nothing else, or it has
none and one stage alone reports: the scanner any number of errors, the parser or the run a single
one.

This needs the expression to reach the command. A text that begins like a flag is not taken as the
value of another flag, so that most expressions with a minus sign in front are a misuse.
-/

namespace Lox

open Lox.Computation

/-! ## Lines of errors -/

theorem linesOf_eq_empty_iff {texts : List String} : linesOf texts = "" ↔ texts = [] := by
  cases texts with
  | nil => exact iff_of_true rfl rfl
  | cons text rest => simp [linesOf, String.join_cons]

theorem errorsOf_eq_empty_iff {coloured : Bool} {events : List Event} :
    errorsOf coloured events = "" ↔ reportsOf events = [] := by
  rw [errorsOf, linesOf_eq_empty_iff, List.map_eq_nil_iff]

theorem outputOf_map_reported (errors : List Diagnostic) :
    outputOf (errors.map .reported) = "" := by
  rw [outputOf, List.filterMap_map]
  exact congrArg linesOf (List.filterMap_eq_nil_iff.2 fun _ _ => rfl)

/-! ## What a session holds -/

namespace Session

theorem held_run (session : Session) (source : String) :
    (session.run source).session.held =
      session.held ++ reportsOf (session.run source).events := rfl

theorem held_evaluateNode (session : Session) (tree : Node) :
    (session.evaluateNode tree).1.session.held =
      session.held ++ reportsOf (session.evaluateNode tree).1.events := by
  rw [evaluateNode, evaluateNodeUnder]
  split <;> rfl

theorem held_reporting (session : Session) (errors : List Diagnostic) :
    (session.reporting errors).session.held =
      session.held ++ reportsOf (session.reporting errors).events := by
  dsimp only [reporting]
  rw [reportsOf_map_reported]

theorem held_evaluate (session : Session) (source : String) :
    (session.evaluate source).1.session.held =
      session.held ++ reportsOf (session.evaluate source).1.events := by
  rw [evaluate, evaluateUnder]
  split
  · split
    · exact held_evaluateNode session _
    · exact held_reporting session _
  · exact held_reporting session _

end Session

/-! ## How an evaluation comes out -/

/-- How the evaluation of a text comes out: with a value and without an error, or without a value and
with the errors of a single stage. -/
inductive Verdict (evaluation : Step × Option Value) : Prop where
  | value {value : Value} (hvalue : evaluation.2 = some value)
    (hreports : reportsOf evaluation.1.events = [])
  | scan (errors : List ScanError) (hsome : errors ≠ []) (hnone : evaluation.2 = none)
    (hreports : reportsOf evaluation.1.events = errors.map .scan)
  | parse (error : ParseError) (hnone : evaluation.2 = none)
    (hreports : reportsOf evaluation.1.events = [.parse error])
  | runtime (error : RuntimeError) (hnone : evaluation.2 = none)
    (hreports : reportsOf evaluation.1.events = [.runtime error])

section Evaluation

variable {session : Session} {tree : Node}

theorem reportsOf_reverse_fail {machine : Machine} (setting : Setting) (error : RuntimeError)
    (hlog : shown machine.log = []) :
    reportsOf (machine.fail setting error).log.reverse = [.runtime error] := by
  rw [reportsOf_reverse, Machine.shown_fail, hlog]
  rfl

theorem outputOf_reverse_fail {machine : Machine} (setting : Setting) (error : RuntimeError)
    (hlog : shown machine.log = []) :
    outputOf (machine.fail setting error).log.reverse = "" := by
  rw [outputOf_reverse, Machine.shown_fail, hlog]
  rfl

/-- An expression of a source text has a value or fails once. It ends and prints nothing. -/
theorem verdict_evaluateNode (session : Session)
    (htree : tree.IsExpr Token.Spelled (Value.isProper · = true)) :
    Verdict (session.evaluateNode tree) ∧ (session.evaluateNode tree).1.ending = .finished ∧
      outputOf (session.evaluateNode tree).1.events = "" := by
  have hend := @agree_evaluate (fun _ => True) session.setting (fun _ _ => trivial) nestingLimit tree
    htree ⟨[session.globals], []⟩ ⟨[session.globals], []⟩ (fun _ _ _ _ => trivial) rfl
  rw [Session.evaluateNode, Session.evaluateNodeUnder]
  generalize evaluate session.setting nestingLimit tree _ = result at hend
  generalize evaluate session.setting (nestingLimit + 1) tree _ = other at hend
  cases hend with
  | @ok value after _ _ hafter =>
    have hlog : shown after.log = [] := hafter.log
    refine ⟨.value rfl ?_, rfl, ?_⟩
    · rw [reportsOf_reverse, hlog]
      rfl
    · rw [outputOf_reverse, hlog]
      rfl
  | @error error after _ hafter =>
    exact ⟨.runtime error rfl (reportsOf_reverse_fail _ error hafter.log), rfl,
      outputOf_reverse_fail _ error hafter.log⟩
  | tooDeep hlog =>
    exact ⟨.runtime (.nestingTooDeep tree.line) rfl (reportsOf_reverse_fail _ _ hlog), rfl,
      outputOf_reverse_fail _ _ hlog⟩

/-- A text is judged by one stage: the scanner, or the parser, or the run. -/
theorem verdict_evaluate (session : Session) (source : String) :
    Verdict (session.evaluate source) ∧ (session.evaluate source).1.ending = .finished ∧
      outputOf (session.evaluate source).1.events = "" := by
  by_cases hscan : (scan source).errors = []
  · cases hparse : parseExpression nestingLimit (scan source).tokens with
    | ok tree =>
      rw [evaluate_of_parsed hscan hparse]
      exact verdict_evaluateNode session (isExpr_of_parsed hparse)
    | error error =>
      rw [evaluate_of_refused hscan hparse]
      exact ⟨.parse error rfl rfl, rfl, rfl⟩
  · rw [evaluate_of_scanErrors hscan]
    exact ⟨.scan _ hscan rfl (reportsOf_map_reported _), rfl, outputOf_map_reported _⟩

end Evaluation

namespace CommandLine

/-! ## What a status tells -/

/-- A status tells the worst kind of error among those reported. -/
structure Status.Tells (status : Status) (reports : List Diagnostic) : Prop where
  badData : status.code = 65 ↔ ∃ error ∈ reports, error.isRuntime = false
  failure : status.code = 70 ↔ reports ≠ [] ∧ ∀ error ∈ reports, error.isRuntime = true
  success : status.code = 0 ↔ reports = []

theorem sessionStatus_tells (session : Session) : (sessionStatus session).Tells session.held := by
  rw [sessionStatus, Session.hadError, Session.hadRuntimeError]
  split_ifs with hsource hrun
  · obtain ⟨error, hmem, hkind⟩ := List.any_eq_true.1 hsource
    have hkind : error.isRuntime = false := by simpa using hkind
    refine ⟨iff_of_true rfl ⟨error, hmem, hkind⟩, iff_of_false (by decide) ?_,
      iff_of_false (by decide) (List.ne_nil_of_mem hmem)⟩
    rintro ⟨-, hall⟩
    rw [hall error hmem] at hkind
    cases hkind
  · obtain ⟨error, hmem, -⟩ := List.any_eq_true.1 hrun
    have hall : ∀ error ∈ session.held, error.isRuntime = true := by simpa using hsource
    refine ⟨iff_of_false (by decide) ?_, iff_of_true rfl ⟨List.ne_nil_of_mem hmem, hall⟩,
      iff_of_false (by decide) (List.ne_nil_of_mem hmem)⟩
    rintro ⟨error, hmem, hkind⟩
    rw [hall error hmem] at hkind
    cases hkind
  · have hnone : session.held = [] := by
      refine List.eq_nil_iff_forall_not_mem.2 fun error hmem => ?_
      cases hkind : error.isRuntime with
      | true => exact hrun (List.any_eq_true.2 ⟨error, hmem, hkind⟩)
      | false => exact hsource (List.any_eq_true.2 ⟨error, hmem, by rw [hkind]; rfl⟩)
    rw [hnone]
    refine ⟨iff_of_false (by decide) ?_, iff_of_false (by decide) fun h => h.1 rfl,
      iff_of_true rfl rfl⟩
    rintro ⟨error, hmem, -⟩
    exact List.not_mem_nil hmem

/-! ## What the arguments of an evaluation ask for -/

section Arguments

variable {text other : String}

/-- A text that does not begin with a dash is no flag. -/
theorem isPlain_of_head (hhead : text.toList.head? ≠ some '-') : IsPlain text := by
  rw [IsPlain, wordOf]
  split
  · next hlist => simp [hlist] at hhead
  · next hlist => simp [hlist] at hhead
  · rfl

theorem eq_of_looseWord (hword : looseWord text = .plain other) : other = text := by
  rw [looseWord] at hword
  split at hword
  · cases hword
    rfl
  · cases hword

/-- A plain word is the argument itself. -/
theorem eq_of_wordOf (hword : wordOf text = .ok (.plain other)) : other = text := by
  rw [wordOf] at hword
  split at hword
  · rw [namedWord] at hword
    split at hword
    · cases hword
    · cases hword
    · exact eq_of_looseWord (Except.ok.inj hword)
    · cases hword
  · split at hword
    · cases hword
    · exact eq_of_looseWord (Except.ok.inj hword)
  · cases hword
    rfl

theorem ofArguments_evaluate (hplain : IsPlain text) :
    Request.ofArguments ["-e", text] = .ok ⟨0, false, .evaluate (some text)⟩ :=
  ofArguments_mode hplain rfl rfl (by decide) rfl

/-- The flag that evaluates takes nothing but a plain word as its value. -/
theorem settle_evaluate {word : Word} (hword : ∀ text, word ≠ .plain text) (rest : List Word) :
    Choices.initial.settle (.flag (.mode .evaluate) (.short []) :: word :: rest) =
      .error (.misuse (.valueMissing (.mode .evaluate))) := by
  have hform : Cluster.ofForm (.mode .evaluate) (.short []) = .ok ⟨[], .wantsValue .evaluate⟩ := rfl
  rw [Choices.settle, hform]
  cases word with
  | plain text => exact absurd rfl (hword text)
  | _ => rfl

theorem ofArguments_evaluate_of_not_isPlain (hplain : ¬ IsPlain text) :
    ∃ reason, Request.ofArguments ["-e", text] = .error (.misuse reason) := by
  have hflag : wordOf "-e" = .ok (.flag (.mode .evaluate) (.short [])) := rfl
  by_cases hseparator : text = "--"
  · subst hseparator
    exact ⟨.valueMissing (.mode .evaluate), rfl⟩
  · rw [Request.ofArguments, wordsOf, if_neg (by decide), hflag, wordsOf, if_neg hseparator]
    cases hword : wordOf text with
    | error reason => exact ⟨reason, rfl⟩
    | ok word =>
      have hother : ∀ text, word ≠ .plain text := by
        rintro other rfl
        obtain rfl := eq_of_wordOf hword
        exact hplain hword
      refine ⟨.valueMissing (.mode .evaluate), ?_⟩
      change (Choices.initial.settle [_, word] >>= _) = _
      rw [settle_evaluate hother]
      rfl

end Arguments

/-! ## Scripts and expressions -/

section Commands

variable (world : World)

theorem run_evaluate_of_not_isPlain {text : String} (hplain : ¬ IsPlain text) :
    (run world ["-e", text]).exit = .status .misuse ∧ (run world ["-e", text]).output = "" := by
  obtain ⟨reason, hreason⟩ := ofArguments_evaluate_of_not_isPlain hplain
  rw [run, hreason]
  exact ⟨rfl, rfl⟩

theorem run_evaluate {text : String} (hplain : IsPlain text) :
    run world ["-e", text] =
      (evaluateReport world.coloured (Session.fresh 0) (some text)).outcome world.directory := by
  rw [run, ofArguments_evaluate hplain]
  rfl

theorem run_script {script source : String} (hplain : IsPlain script)
    (hsource : readText world.directory (Path.ofText script) = .ok source) :
    run world [script] =
      (stepReport world.coloured ((Session.fresh 0).run source)).outcome world.directory := by
  have hne : script ≠ "" := by
    rintro rfl
    exact readText_empty_ne_ok hsource
  rw [run, ofArguments_script hplain hne, ← scriptReport_eq _ _ hsource]
  rfl

theorem evaluateReport_of_value {session : Session} {text : String} {value : Value}
    (coloured : Bool) (hvalue : (session.evaluate text).2 = some value) :
    evaluateReport coloured session (some text) =
      ⟨.status .success, outputOf (session.evaluate text).1.events ++ value.display ++ "\n",
        errorsOf coloured (session.evaluate text).1.events,
        traceOf (session.evaluate text).1.events⟩ := by
  rw [evaluateReport]
  generalize session.evaluate text = evaluation at hvalue
  obtain ⟨step, _⟩ := evaluation
  cases hvalue
  rfl

theorem evaluateReport_of_none {session : Session} {text : String} (coloured : Bool)
    (hnone : (session.evaluate text).2 = none) :
    evaluateReport coloured session (some text) =
      stepReport coloured (session.evaluate text).1 := by
  rw [evaluateReport]
  generalize session.evaluate text = evaluation at hnone
  obtain ⟨step, _⟩ := evaluation
  cases hnone
  rfl

theorem stepExit_of_finished {step : Step} (hending : step.ending = .finished) :
    stepExit step = .status (sessionStatus step.session) := by
  rw [stepExit, hending]

/-- A step that came to its end has the status that the errors held then call for. -/
theorem stepExit_of_held {step : Step} {reports : List Diagnostic} (hending : step.ending = .finished)
    (hheld : step.session.held = reports) :
    stepExit step = .status (sessionStatus { Session.fresh 0 with held := reports }) := by
  rw [stepExit_of_finished hending, ← hheld]
  rfl

/-- No script is a fault, in a session without variables. -/
theorem run_fresh_ne_faulted (source : String) (fault : TreeFault) :
    ((Session.fresh 0).run source).ending ≠ .faulted fault := by
  have hglobals : (Session.fresh 0).globals.Proper := fun _ hmem => absurd hmem List.not_mem_nil
  have hinner : Scopes.Proper [] := fun _ hmem => absurd hmem List.not_mem_nil
  exact (runWithin_safe source hglobals hinner).1 fault

end Commands

/-- The status of a command agrees with what it reports and shows. A readable script whose run ends
has status 65 just if an error of its source was reported, 70 just if there was no such error and one
of the run, and 0 just if there was none, which is when nothing is written among the errors. A text
that can be the value of a flag is evaluated: it has a value, which is all that is shown, or there is
no output and one or more errors of the scanner, or one of the parser, or one of the run. Any other
text is a misuse and shows nothing, and only texts that begin with a dash are such. -/
theorem status_agrees_with_reports (world : World) :
    (∀ script source, IsPlain script →
      readText world.directory (Path.ofText script) = .ok source →
      ((Session.fresh 0).run source).ending ≠ .unfinished →
      ∃ status, (run world [script]).exit = .status status ∧
        status.Tells (reportsOf ((Session.fresh 0).run source).events) ∧
        (run world [script]).errors =
          errorsOf world.coloured ((Session.fresh 0).run source).events ∧
        (status.code = 0 ↔ (run world [script]).errors = "")) ∧
    (∀ text, IsPlain text →
      (run world ["-e", text]).errors =
        errorsOf world.coloured ((Session.fresh 0).evaluate text).1.events ∧
      ((∃ value, ((Session.fresh 0).evaluate text).2 = some value ∧
          (run world ["-e", text]).exit = .status .success ∧
          (run world ["-e", text]).output = value.display ++ "\n" ∧
          (run world ["-e", text]).errors = "") ∨
        (run world ["-e", text]).output = "" ∧
          ((∃ errors ≠ [], reportsOf ((Session.fresh 0).evaluate text).1.events =
              errors.map .scan ∧ (run world ["-e", text]).exit = .status .badData) ∨
            (∃ error, reportsOf ((Session.fresh 0).evaluate text).1.events =
              [.parse error] ∧ (run world ["-e", text]).exit = .status .badData) ∨
            ∃ error, reportsOf ((Session.fresh 0).evaluate text).1.events =
              [.runtime error] ∧ (run world ["-e", text]).exit = .status .failure))) ∧
    (∀ text, ¬ IsPlain text →
      text.toList.head? = some '-' ∧ (run world ["-e", text]).exit = .status .misuse ∧
        (run world ["-e", text]).output = "") := by
  refine ⟨fun script source hscript hsource hends => ?_, fun text hplain => ?_,
    fun text hplain => ⟨?_, run_evaluate_of_not_isPlain world hplain⟩⟩
  · have hfinished : ((Session.fresh 0).run source).ending = .finished := by
      cases hending : ((Session.fresh 0).run source).ending with
      | finished => rfl
      | unfinished => exact absurd hending hends
      | faulted fault => exact absurd hending (run_fresh_ne_faulted source fault)
    have htells := sessionStatus_tells ((Session.fresh 0).run source).session
    rw [Session.held_run] at htells
    rw [run_script world hscript hsource]
    refine ⟨_, stepExit_of_finished hfinished, htells, rfl, ?_⟩
    exact htells.success.trans errorsOf_eq_empty_iff.symm
  · have hheld := Session.held_evaluate (Session.fresh 0) text
    obtain ⟨hverdict, hending, houtput⟩ := verdict_evaluate (Session.fresh 0) text
    rw [run_evaluate world hplain]
    cases hverdict with
    | value hvalue hreports =>
      rw [evaluateReport_of_value _ hvalue]
      refine ⟨rfl, .inl ⟨_, hvalue, rfl, ?_, errorsOf_eq_empty_iff.2 hreports⟩⟩
      change outputOf _ ++ _ ++ _ = _
      rw [houtput, String.empty_append]
    | scan errors hsome hnone hreports =>
      rw [evaluateReport_of_none _ hnone]
      refine ⟨rfl, .inr ⟨houtput, .inl ⟨errors, hsome, hreports, ?_⟩⟩⟩
      obtain ⟨error, rest, rfl⟩ := List.exists_cons_of_ne_nil hsome
      exact stepExit_of_held hending (hheld.trans hreports)
    | parse error hnone hreports =>
      rw [evaluateReport_of_none _ hnone]
      refine ⟨rfl, .inr ⟨houtput, .inr (.inl ⟨error, hreports, ?_⟩)⟩⟩
      exact stepExit_of_held hending (hheld.trans hreports)
    | runtime error hnone hreports =>
      rw [evaluateReport_of_none _ hnone]
      refine ⟨rfl, .inr ⟨houtput, .inr (.inr ⟨error, hreports, ?_⟩)⟩⟩
      exact stepExit_of_held hending (hheld.trans hreports)
  · by_contra hhead
    exact hplain (isPlain_of_head hhead)

/-- A script that fails on its second line, and two texts to evaluate: one with a value, and one that
begins like a flag. -/
theorem status_agrees_with_reports_failing :
    (∃ status, (run (scriptWorld "print 0.1;\nprint -nil;") ["main.lox"]).exit = .status status ∧
      status.code = 70 ∧ (run (scriptWorld "print 0.1;\nprint -nil;") ["main.lox"]).errors ≠ "") ∧
    (run (scriptWorld "") ["-e", "1 + 2"]).exit = .status .success ∧
    (run (scriptWorld "") ["-e", "--x"]).exit = .status .misuse := by
  obtain ⟨hscript, -, -⟩ := status_agrees_with_reports (scriptWorld "print 0.1;\nprint -nil;")
  obtain ⟨-, hevaluate, hmisuse⟩ := status_agrees_with_reports (scriptWorld "")
  refine ⟨?_, ?_, (hmisuse "--x" nofun).2.1⟩
  · obtain ⟨status, hexit, htells, -, hsilent⟩ := hscript "main.lox" _ rfl
      (readText_scriptWorld (by decide)) (by decide +kernel)
    have hcode : status.code = 70 := htells.failure.2 ⟨fun hnone => ?_, by decide +kernel⟩
    · refine ⟨status, hexit, hcode, fun hempty => ?_⟩
      have := hsilent.2 hempty
      omega
    · exact absurd (List.isEmpty_iff.2 hnone) (by decide +kernel)
  · have hreports : reportsOf ((Session.fresh 0).evaluate "1 + 2").1.events = [] :=
      List.isEmpty_iff.1 (by decide +kernel)
    obtain ⟨-, ⟨_, -, hexit, -⟩ | ⟨-, hfailed⟩⟩ := hevaluate "1 + 2" rfl
    · exact hexit
    · rw [hreports] at hfailed
      obtain ⟨errors, hsome, hmap, -⟩ | ⟨_, hlist, -⟩ | ⟨_, hlist, -⟩ := hfailed
      · exact absurd (List.map_eq_nil_iff.1 hmap.symm) hsome
      · cases hlist
      · cases hlist

/-- A minus sign in front of a variable makes an expression, which fails when it is evaluated as the
variable has no value. But it also makes the expression look like a flag. -/
theorem negated_variable_is_misuse :
    (reportsOf ((Session.fresh 0).evaluate "-x").1.events).map Diagnostic.describe =
      ["[line 1] UndefinedVariable: Undefined variable 'x'."] ∧
    (run (scriptWorld "") ["-e", "-x"]).exit = .status .misuse ∧
    Status.misuse.code ∉ [0, 65, 70] := by
  exact ⟨by decide +kernel, rfl, by decide⟩

end CommandLine

end Lox
