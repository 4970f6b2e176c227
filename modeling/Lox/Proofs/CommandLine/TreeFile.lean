import Lox.Proofs.CommandLine.Status
import Lox.Proofs.Run.Runnable

/-!
# Running a tree file

A tree file is refused or run. It is refused with a complaint, before anything is run, if its text is
no document or the document no tree, and a tree whose places all hold what belongs there is run to a
status of its own. What is left are the files that end the command with a fault: documents with a
number that is too large, trees that are no program, and programs that reach a node they cannot use.

Nothing is said of a file that spells half of a character: a string of this kind is no text, and what
becomes of it depends on where it is written to.
-/

namespace Lox.CommandLine

def Exit.isEscape : Exit → Bool
  | .escaped _ => true
  | _ => false

/-- A file is refused: status 65, no output, and a line that calls it no tree file. -/
structure Report.Refuses (report : Report) (path : Path) : Prop where
  exit : report.exit = .status .badData
  output : report.output = ""
  errors : ∃ reason, report.errors =
    "Error: " ++ (path.text ++ " is not a valid AST file: " ++ reason) ++ "\n"

section

variable {path : Path} {text : String}

theorem refuses_complain (path : Path) (reason : String) :
    (Report.complain .badData (path.text ++ " is not a valid AST file: " ++ reason)).Refuses path :=
  ⟨rfl, rfl, reason, rfl⟩

/-- An escape in a text spells half of a character without the other half, and up to there the text
is that of a document. -/
def SpellsHalf (text : String) : Prop :=
  ∃ fault, Json.read text = .error fault ∧ fault.complaint = .halfCharacter

/-- A text that gives no tree is refused, unless it spells half of a character or a number in it is
too large. -/
theorem readTree_error {report : Report} (hread : readTree path text = .error report) :
    report.Refuses path ∨ (report.exit = .halfCharacter ∧ SpellsHalf text) ∨
      ∃ error, isComplaint error = false ∧ report = .escape (.document error) := by
  rw [readTree] at hread
  split at hread
  · next fault hfault =>
    cases hread
    split
    · next hhalf => exact .inr (.inl ⟨rfl, fault, hfault, hhalf⟩)
    · exact .inl (refuses_complain path _)
  · split at hread
    · next error _ =>
      cases hread
      cases hcomplaint : isComplaint error with
      | true => exact .inl (refuses_complain path _)
      | false => exact .inr (.inr ⟨error, hcomplaint, rfl⟩)
    · cases hread

theorem isComplaint_eq_false {error : DecodeError} (hcomplaint : isComplaint error = false) :
    error = .numberTooLarge ∨ error = .lineInfinite := by
  cases error with
  | numberTooLarge => exact .inl rfl
  | lineInfinite => exact .inr rfl
  | _ => cases hcomplaint

theorem sessionStatus_code (session : Session) : (sessionStatus session).code ∈ [0, 65, 70] := by
  rw [sessionStatus]
  split_ifs <;> decide

theorem stepExit_eq_escaped {step : Step} {fault : Escape} :
    stepExit step = .escaped fault ↔ ∃ cause, fault = .tree cause ∧ step.ending = .faulted cause := by
  rw [stepExit]
  cases step.ending with
  | faulted cause => simp [eq_comm]
  | _ => simp

end

/-- Every readable text that does not spell half of a character is refused or run. If it gives no
tree, the file is refused whatever the session, or the command ends with a fault because of a number
that is too large. If it gives one, the command ends with a fault just if the run does, which it does
not where every place of the tree holds what belongs there, and certainly does where the tree is
neither a program nor a block. Without a fault, and if all its loops end, the command has the status
that the errors of the session call for. The trees of source texts are among those that are run
without a fault. -/
theorem tree_file_is_refused_or_run (coloured : Bool) (session : Session) (directory : Directory)
    (path : Path) {text : String} (htext : readText directory path = .ok text) :
    (∀ report, readTree path text = .error report →
      treeReport coloured session directory path = report ∧
        (report.Refuses path ∨ report.exit = .escaped (.document .numberTooLarge) ∨
          report.exit = .escaped (.document .lineInfinite) ∨
          report.exit = .halfCharacter ∧ SpellsHalf text)) ∧
    (∀ tree, readTree path text = .ok tree →
      (∀ fault, (treeReport coloured session directory path).exit = .escaped fault ↔
        ∃ cause, fault = .tree cause ∧ (session.runTree tree).ending = .faulted cause) ∧
      (tree.isRunnable = true → (session.runTree tree).ending ≠ .unfinished →
        (treeReport coloured session directory path).exit =
            .status (sessionStatus (session.runTree tree).session) ∧
          (sessionStatus (session.runTree tree).session).code ∈ [0, 65, 70]) ∧
      ((∀ statements, tree ≠ .program statements ∧ tree ≠ .block statements) →
        (treeReport coloured session directory path).exit =
          .escaped (.tree (.noAttribute tree.typeName "statements")))) ∧
    ∀ source, (sourceTree source).isRunnable = true := by
  refine ⟨fun report hread => ?_, fun tree hread => ?_, Node.isRunnable_ofSource⟩
  · have hreport : treeReport coloured session directory path = report := by
      simp only [treeReport, htext, hread]
    refine ⟨hreport, ?_⟩
    rcases readTree_error hread with hrefuses | hhalf | ⟨error, hcomplaint, rfl⟩
    · exact .inl hrefuses
    · exact .inr (.inr (.inr hhalf))
    · rcases isComplaint_eq_false hcomplaint with rfl | rfl
      · exact .inr (.inl rfl)
      · exact .inr (.inr (.inl rfl))
  · have hreport : treeReport coloured session directory path =
        stepReport coloured (session.runTree tree) := by
      simp only [treeReport, htext, hread]
    rw [hreport]
    refine ⟨fun fault => stepExit_eq_escaped, fun hrunnable hends => ?_, fun hother => ?_⟩
    · refine ⟨?_, sessionStatus_code _⟩
      apply stepExit_of_finished
      cases hending : (session.runTree tree).ending with
      | finished => rfl
      | unfinished => exact absurd hending hends
      | faulted fault => exact absurd hending (runTree_ne_faulted hrunnable session fault)
    · apply stepExit_eq_escaped.2
      refine ⟨_, rfl, ?_⟩
      cases tree with
      | program statements => exact absurd rfl (hother statements).1
      | block statements => exact absurd rfl (hother statements).2
      | _ => rfl

def treeFile : Path :=
  ⟨.here, ["a.json"]⟩

def treeWorld (text : String) : World :=
  ⟨Directory.empty.putText ⟨false, ["a.json"]⟩ text, [], "", false⟩

theorem readText_treeWorld {text : String} (htext : '\r' ∉ text.toList) :
    readText (treeWorld text).directory treeFile = .ok text :=
  readText_putText rfl htext

/-- The document of a block that prints a list, which no source text has. -/
def listPrint : String :=
  "\x7b\"type\": \"Block\", \"statements\": [\x7b\"type\": \"PrintStmt\", " ++
  "\"expression\": \x7b\"type\": \"Literal\", \"value\": []\x7d\x7d]\x7d"

/-- What a tree file has to be for its run to end without a fault. -/
def endsWell (text : String) : Bool :=
  match readTree treeFile text with
  | .ok tree => tree.isRunnable && ((Session.fresh 0).runTree tree).ending ≠ .unfinished
  | .error _ => false

theorem tree_file_is_refused_or_run_listPrint :
    readText (treeWorld listPrint).directory treeFile = .ok listPrint ∧
    ∃ tree, readTree treeFile listPrint = .ok tree ∧ tree.isRunnable = true ∧
      (treeReport false (Session.fresh 0) (treeWorld listPrint).directory treeFile).exit =
        .status (sessionStatus ((Session.fresh 0).runTree tree).session) := by
  have htext : readText (treeWorld listPrint).directory treeFile = .ok listPrint :=
    readText_treeWorld (by decide +kernel)
  obtain ⟨-, hrun, -⟩ :=
    tree_file_is_refused_or_run false (Session.fresh 0) (treeWorld listPrint).directory treeFile htext
  have hwell : endsWell listPrint = true := by decide +kernel
  rw [endsWell] at hwell
  split at hwell
  · next tree hread =>
    obtain ⟨hrunnable, hends⟩ := Bool.and_eq_true_iff.1 hwell
    obtain ⟨-, hstatus, -⟩ := hrun tree hread
    exact ⟨htext, tree, hread, hrunnable, (hstatus hrunnable (of_decide_eq_true hends)).1⟩
  · cases hwell

/-- The document of a token whose line is too large for any number but infinity. -/
def infiniteLine : String :=
  "\x7b\"type\": \"Token\", \"kind\": \"EOF\", \"lexeme\": \"\", \"line\": 1e400\x7d"

/-- The document of a program that prints the value of an empty place. -/
def emptyPrint : String :=
  "\x7b\"type\": \"Program\", \"statements\": " ++
  "[\x7b\"type\": \"PrintStmt\", \"expression\": null\x7d]\x7d"

theorem exit_treeWorld {text : String} (htext : '\r' ∉ text.toList) :
    (run (treeWorld text) ["--ast", "a.json"]).exit =
      match readTree treeFile text with
      | .error report => report.exit
      | .ok tree => stepExit ((Session.fresh 0).runTree tree) := by
  have hplain : IsPlain "a.json" := by rfl
  have hpath : Path.ofText "a.json" = treeFile := by decide
  have hrun : (run (treeWorld text) ["--ast", "a.json"]).exit =
      (treeReport false (Session.fresh 0) (treeWorld text).directory treeFile).exit := by
    rw [run, ofArguments_runTree hplain (by decide), ← hpath]
    rfl
  rw [hrun, treeReport, readText_treeWorld htext]
  dsimp only
  cases readTree treeFile text <;> rfl

/-- A number that is too large, a document that is no program, and a program with an empty place: in
none of these is the file refused, and in none does the command come to a status. -/
theorem tree_files_escape :
    (run (treeWorld infiniteLine) ["--ast", "a.json"]).exit.isEscape = true ∧
    (run (treeWorld "null") ["--ast", "a.json"]).exit.isEscape = true ∧
    (run (treeWorld emptyPrint) ["--ast", "a.json"]).exit.isEscape = true := by
  rw [exit_treeWorld (by decide +kernel), exit_treeWorld (by decide +kernel),
    exit_treeWorld (by decide +kernel)]
  decide +kernel

end Lox.CommandLine
