import Lox.CommandLine.Run
import Lox.Proofs.Directory.Put
import Lox.Proofs.Json.Lines
import Lox.Proofs.Tree.Document

/-!
# Keeping a tree and running it

A script whose tree was kept in a file does the same when the tree is run: the document in the file
is read back as it was written, it describes the tree of the script, and running a tree is running
the script it came from, once there are no errors in it to be reported first.
-/

namespace Lox.CommandLine

/-! ## What the arguments ask for -/

/-- An argument that no flag is read from. -/
def IsPlain (argument : String) : Prop :=
  wordOf argument = .ok (.plain argument)

section

variable {argument : String}

theorem wordsOf_of_isPlain (hplain : IsPlain argument) :
    wordsOf [argument] = .ok [.plain argument] := by
  have hseparator : argument ≠ "--" := by
    rintro rfl
    cases hplain
  have hword : wordOf argument = .ok (.plain argument) := hplain
  simp only [wordsOf, if_neg hseparator, hword, bind, Except.bind, pure, Except.pure]

theorem fileTask?_of_ne_empty (task : String → Task) (hne : argument ≠ "") :
    fileTask? task (some argument) = some (task argument) := by
  simp [fileTask?, Option.filter, hne]

theorem ofArguments_script (hplain : IsPlain argument) (hne : argument ≠ "") :
    Request.ofArguments [argument] = .ok ⟨0, false, .runScript argument⟩ := by
  have htask := fileTask?_of_ne_empty .runScript hne
  simp [Request.ofArguments, wordsOf_of_isPlain hplain, Choices.settle, Choices.takePlain,
    Choices.initial, Choices.request, Choices.modeTask?, Choices.scriptTask?, htask,
    Except.mapError, bind, Except.bind]

theorem ofArguments_mode {flag : String} {form : Form} {mode : Mode} {task : Task}
    (hplain : IsPlain argument) (hflag : wordOf flag = .ok (.flag (.mode mode) form))
    (hform : Cluster.ofForm (.mode mode) form = .ok ⟨[], .wantsValue mode⟩)
    (hseparator : flag ≠ "--")
    (htask : Choices.modeTask? { Choices.initial with mode := some (mode, some argument) } =
      some task) :
    Request.ofArguments [flag, argument] = .ok ⟨0, false, task⟩ := by
  have hwords : wordsOf [flag, argument] = .ok [.flag (.mode mode) form, .plain argument] := by
    rw [wordsOf, if_neg hseparator, hflag, wordsOf_of_isPlain hplain]
    rfl
  have hsettle : Choices.initial.settle [.flag (.mode mode) form, .plain argument] =
      .ok { Choices.initial with mode := some (mode, some argument) } := by
    rw [Choices.settle, hform]
    rfl
  have hrequest : Choices.request { Choices.initial with mode := some (mode, some argument) } =
      .ok ⟨0, false, task⟩ := by
    rw [Choices.request, htask]
    rfl
  rw [Request.ofArguments, hwords]
  change (Choices.initial.settle _ >>= fun choices => choices.request.mapError Refusal.misuse) = _
  rw [hsettle]
  change (Choices.request { Choices.initial with mode := some (mode, some argument) }).mapError
    Refusal.misuse = _
  rw [hrequest]
  rfl

theorem ofArguments_emitTree (hplain : IsPlain argument) (hne : argument ≠ "") :
    Request.ofArguments ["--emit-ast", argument] = .ok ⟨0, false, .emitTree argument⟩ :=
  ofArguments_mode hplain rfl rfl (by decide) (fileTask?_of_ne_empty .emitTree hne)

theorem ofArguments_runTree (hplain : IsPlain argument) (hne : argument ≠ "") :
    Request.ofArguments ["--ast", argument] = .ok ⟨0, false, .runTree argument⟩ :=
  ofArguments_mode hplain rfl rfl (by decide) (fileTask?_of_ne_empty .runTree hne)

end

/-! ## Texts in files -/

theorem readText_empty_ne_ok {directory : Directory} {text : String} :
    readText directory (Path.ofText "") ≠ .ok text := by
  have hpath : Path.ofText "" = ⟨.here, []⟩ := by decide
  have hread : directory.read ⟨.here, []⟩ = .error .isAFolder := by rfl
  rw [hpath, readText, hread]
  exact nofun

theorem ofText_ne_treePath_of_empty (path : Path) : Path.ofText "" ≠ treePath path := by
  have hpath : (Path.ofText "").parts = [] := by decide
  intro h
  rw [h] at hpath
  simp [treePath, Path.extend] at hpath

theorem readText_putText {directory : Directory} {path : Path} {place : Place} {text : String}
    (htarget : directory.target path = .ok place) (htext : '\r' ∉ text.toList) :
    readText (directory.putText place text) path = .ok text := by
  rw [readText, Directory.putText, Directory.read_put htarget]
  dsimp only
  rw [Text.ofFile_toUTF8 text htext]

/-! ## Keeping and running -/

section

variable {source : String}

def sourceTree (source : String) : Node :=
  .program (Program.ofSource source).statements

/-- The document of the tree of a source text is read back from its text. -/
def DocumentReadsBack (source : String) : Prop :=
  Json.read (sourceTree source).toJson.indented = .ok (sourceTree source).toJson

theorem runTree_sourceTree (session : Session) (herrors : (Program.ofSource source).errors = []) :
    session.runTree (sourceTree source) = session.run source := by
  have hprogram : Program.ofSource source = ⟨(Program.ofSource source).statements, []⟩ := by
    rw [← herrors]
  rw [Session.run, hprogram]
  rfl

theorem readTree_sourceTree {path : Path} (hdocument : DocumentReadsBack source) :
    readTree path (sourceTree source).toJson.indented = .ok (sourceTree source) := by
  have hread : Json.read (sourceTree source).toJson.indented = .ok (sourceTree source).toJson :=
    hdocument
  have htree : Node.ofJson (sourceTree source).toJson = .ok (sourceTree source) :=
    Node.readsBack_program source nestingLimit
  simp only [readTree, hread, htree]

theorem scriptReport_eq {directory : Directory} {path : Path} (coloured : Bool) (session : Session)
    (hsource : readText directory path = .ok source) :
    scriptReport coloured session directory path = stepReport coloured (session.run source) := by
  rw [scriptReport, hsource]

theorem emitReport_of_errors {directory : Directory} {path : Path} (coloured : Bool)
    (hsource : readText directory path = .ok source)
    (herrors : (Program.ofSource source).errors ≠ []) :
    (emitReport coloured directory path).1.exit = .status .badData ∧
      (emitReport coloured directory path).2 = directory := by
  simp [emitReport, hsource, treeText, herrors]

theorem emitReport_of_fits {directory : Directory} {path : Path} {place : Place} (coloured : Bool)
    (hsource : readText directory path = .ok source)
    (herrors : (Program.ofSource source).errors = [])
    (hdepth : (sourceTree source).depth ≤ nestingLimit)
    (htarget : directory.target (treePath path) = .ok place) :
    emitReport coloured directory path =
      (⟨.status .success, (treePath path).text ++ "\n", "", ""⟩,
        directory.putText place (sourceTree source).toJson.indented) := by
  have hnest : ¬ nestingLimit < (sourceTree source).depth := Nat.not_lt.2 hdepth
  have htext : treeText coloured path source = .ok (sourceTree source).toJson.indented := by
    simp only [treeText, herrors, List.isEmpty_nil, Bool.not_true, Bool.false_eq_true, if_false]
    exact if_neg hnest
  simp only [emitReport, hsource, htext, htarget]

theorem treeReport_of_emitted {directory : Directory} {path : Path} {place : Place}
    (coloured : Bool) (session : Session) (herrors : (Program.ofSource source).errors = [])
    (hdocument : DocumentReadsBack source) (htarget : directory.target path = .ok place) :
    treeReport coloured session (directory.putText place (sourceTree source).toJson.indented) path =
      stepReport coloured (session.run source) := by
  have hread := readText_putText htarget
    (Json.return_not_mem_textAt (some 0) (sourceTree source).toJson)
  rw [treeReport, Json.indented, hread]
  dsimp only
  rw [← Json.indented, readTree_sourceTree hdocument]
  dsimp only
  rw [runTree_sourceTree session herrors]

end

/-- Two commands end alike and show the same. -/
def Outcome.Alike (one other : Outcome) : Prop :=
  one.exit = other.exit ∧ one.output = other.output ∧ one.errors = other.errors

/-- A script with errors leaves no tree behind. A script without errors, whose tree does not nest too
deeply to be kept, leaves its tree in the file beside it, and running that file ends and shows the
same as running the script. This needs the document of the tree to be read back as it was written,
which it is within the limits of the reader: as long as it does not nest too far, and no line has a
number of too many digits. -/
theorem kept_tree_runs_alike (world : World) {script source : String} (hscript : IsPlain script)
    (hsource : readText world.directory (Path.ofText script) = .ok source) :
    ((Program.ofSource source).errors ≠ [] →
      (run world ["--emit-ast", script]).exit = .status .badData ∧
        (run world ["--emit-ast", script]).directory = world.directory) ∧
    ((Program.ofSource source).errors = [] → (sourceTree source).depth ≤ nestingLimit →
      DocumentReadsBack source →
      ∀ file place, IsPlain file → Path.ofText file = treePath (Path.ofText script) →
        world.directory.target (treePath (Path.ofText script)) = .ok place →
        (run world ["--emit-ast", script]).exit = .status .success ∧
          (run world ["--emit-ast", script]).directory =
            world.directory.putText place (sourceTree source).toJson.indented ∧
          (run { world with directory := (run world ["--emit-ast", script]).directory }
            ["--ast", file]).Alike (run world [script])) ∧
    ((sourceTree source).toJson.nesting ≤ Json.depthLimit →
      source.toList.length + 1 < 10 ^ Numeral.digitLimit → DocumentReadsBack source) := by
  have hne : script ≠ "" := by
    rintro rfl
    exact readText_empty_ne_ok hsource
  have hemit : run world ["--emit-ast", script] =
      (emitReport world.coloured world.directory (Path.ofText script)).1.outcome
        (emitReport world.coloured world.directory (Path.ofText script)).2 := by
    rw [run, ofArguments_emitTree hscript hne]
    rfl
  have hrun : run world [script] =
      (stepReport world.coloured ((Session.fresh 0).run source)).outcome world.directory := by
    rw [run, ofArguments_script hscript hne, ← scriptReport_eq _ _ hsource]
    rfl
  refine ⟨fun herrors => ?_, fun herrors hdepth hdocument file place hfile hpath htarget => ?_,
    fun hnesting hlength => Node.read_program hlength hnesting⟩
  · rw [hemit]
    dsimp only [Report.outcome]
    exact emitReport_of_errors world.coloured hsource herrors
  · have hfileNe : file ≠ "" := by
      rintro rfl
      exact ofText_ne_treePath_of_empty _ hpath
    have hkept : run world ["--emit-ast", script] =
        ⟨.status .success, (treePath (Path.ofText script)).text ++ "\n", "",
          world.directory.putText place (sourceTree source).toJson.indented⟩ := by
      rw [hemit, emitReport_of_fits world.coloured hsource herrors hdepth htarget]
      rfl
    rw [hkept]
    refine ⟨rfl, rfl, ?_⟩
    -- The file is read by the path that it was written to, so it is found in the same place.
    have hreload : ∀ directory, run { world with directory } ["--ast", file] =
        (treeReport world.coloured (Session.fresh 0) directory (Path.ofText file)).outcome
          directory := by
      intro directory
      rw [run, ofArguments_runTree hfile hfileNe]
      rfl
    rw [hreload, hpath, treeReport_of_emitted _ _ herrors hdocument htarget, hrun]
    exact ⟨rfl, rfl, rfl⟩

def mainPlace : Place :=
  ⟨false, ["main.lox"]⟩

def scriptWorld (source : String) : World :=
  ⟨Directory.empty.putText mainPlace source, [], "", false⟩

theorem readText_scriptWorld {source : String} (hsource : '\r' ∉ source.toList) :
    readText (scriptWorld source).directory (Path.ofText "main.lox") = .ok source := by
  have hpath : Path.ofText "main.lox" = ⟨.here, ["main.lox"]⟩ := by decide
  rw [hpath]
  exact readText_putText rfl hsource

/-- A script that fails on its second line does so too when its tree is run, and one that lacks an
operand leaves no tree. -/
theorem kept_tree_runs_alike_failing :
    ((run (scriptWorld "print 0.1;\nprint -nil;") ["--emit-ast", "main.lox"]).exit =
        .status .success ∧
      (run { scriptWorld "print 0.1;\nprint -nil;" with
          directory := (run (scriptWorld "print 0.1;\nprint -nil;")
            ["--emit-ast", "main.lox"]).directory }
        ["--ast", "main.lox.ast.json"]).Alike
        (run (scriptWorld "print 0.1;\nprint -nil;") ["main.lox"])) ∧
    (run (scriptWorld "print ;") ["--emit-ast", "main.lox"]).exit = .status .badData := by
  have hscript : IsPlain "main.lox" := by rfl
  have hfile : IsPlain "main.lox.ast.json" := by rfl
  have hgood := (kept_tree_runs_alike (scriptWorld "print 0.1;\nprint -nil;") hscript
    (readText_scriptWorld (by decide))).2
  have hkept := hgood.1 (List.isEmpty_iff.1 (by decide +kernel)) (by decide +kernel)
    (hgood.2 (by decide +kernel) (by decide +kernel)) "main.lox.ast.json"
    ⟨false, ["main.lox.ast.json"]⟩ hfile (by decide) rfl
  have hbad := (kept_tree_runs_alike (scriptWorld "print ;") hscript
    (readText_scriptWorld (by decide))).1
    fun herrors => absurd (List.isEmpty_iff.2 herrors) (by decide +kernel)
  exact ⟨⟨hkept.1, hkept.2.2⟩, hbad.1⟩

end Lox.CommandLine
