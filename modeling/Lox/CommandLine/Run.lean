import Lox.CommandLine.Help
import Lox.CommandLine.Request
import Lox.Directory.Basic
import Lox.Json.Reader
import Lox.Json.Writer
import Lox.Shell
import Lox.Text.Utf8

/-!
# Running a command

A command sees some files, the environment and the input, and leaves behind an exit status, two
texts and changed files. With a trace asked for, the trace file is emptied before anything else is
read and holds the whole trace in the end, however the command ends.
-/

namespace Lox.CommandLine

/-- What a command sees. The input may end by being broken off. -/
structure World where
  directory : Directory
  environment : List (String × String)
  input : String
  breaksOff : Bool

/-- The text of a variable of the environment; one that is not there counts as empty. -/
def World.lookUp (world : World) (name : String) : String :=
  ((world.environment.find? (·.1 = name)).map (·.2)).getD ""

/-- Whether a variable of the environment has a text that is not empty. -/
def World.isSet (world : World) (name : String) : Bool :=
  !(world.lookUp name).isEmpty

def World.columns (world : World) : Int :=
  let told := world.lookUp "COLUMNS"
  match Numeral.excess? told, Numeral.int? told with
  | none, some columns => if 0 < columns then columns else 80
  | _, _ => 80

/-- The width that texts about the program are laid out for. -/
def World.width (world : World) : Int :=
  world.columns - 2

/-- Whether errors are shown in colours where the command does not forbid it. -/
def World.coloured (world : World) : Bool :=
  !world.isSet "ANSI_COLORS_DISABLED" && !world.isSet "NO_COLOR" && world.isSet "FORCE_COLOR"

inductive Status where
  | success
  | misuse
  | badData
  | noInput
  | failure
  | interrupted
  deriving DecidableEq, Repr

def Status.code : Status → Nat
  | success => 0
  | misuse => 2
  | badData => 65
  | noInput => 66
  | failure => 70
  | interrupted => 130

/-- A fault for which a command has no status of its own. -/
inductive Escape where
  | document (error : DecodeError)
  | tree (fault : TreeFault)
  | file (fault : FileFault) (path : Path)
  | noText

def Escape.message : Escape → String
  | document error => error.message
  | tree fault => fault.message
  | file fault path => fault.message path.text
  | noText => "text must be str or bytes"

/-- What comes of a command: a status or a fault. It is not told if a loop went on for too long, or
if a tree file spells half of a character, which no text can hold. -/
inductive Exit where
  | status (status : Status)
  | escaped (fault : Escape)
  | unfinished
  | halfCharacter

/-- What a task does apart from changing files. -/
structure Report where
  exit : Exit
  output : String
  errors : String
  trace : String

namespace Report

/-- A task that ends with a fault before it has done anything. -/
def escape (fault : Escape) : Report :=
  ⟨.escaped fault, "", "", ""⟩

/-- A task that ends with a complaint. -/
def complain (status : Status) (complaint : String) : Report :=
  ⟨.status status, "", "Error: " ++ complaint ++ "\n", ""⟩

end Report

def sessionStatus (session : Session) : Status :=
  if session.hadError then .badData else if session.hadRuntimeError then .failure else .success

def stepExit (step : Step) : Exit :=
  match step.ending with
  | .finished => .status (sessionStatus step.session)
  | .faulted fault => .escaped (.tree fault)
  | .unfinished => .unfinished

def stepReport (coloured : Bool) (step : Step) : Report :=
  ⟨stepExit step, outputOf step.events, errorsOf coloured step.events, traceOf step.events⟩

/-- The text of the file at a path, or the report of a task that cannot go on without it. -/
def readText (directory : Directory) (path : Path) : Except Report String :=
  let complain (message : String) : Report :=
    .complain .noInput ("cannot read " ++ path.text ++ ": " ++ message)
  match directory.read path with
  | .error .zeroByte => .error (.escape (.file .zeroByte path))
  | .error fault => .error (complain (fault.message path.text))
  | .ok bytes =>
    match Text.ofFile bytes with
    | .error fault => .error (complain fault.message)
    | .ok text => .ok text

/-! ## Tasks -/

def evaluateReport (coloured : Bool) (session : Session) : Option String → Report
  | none => .escape .noText
  | some expression =>
    match session.evaluate expression with
    | (step, some value) =>
      ⟨.status .success, outputOf step.events ++ value.display ++ "\n",
        errorsOf coloured step.events, traceOf step.events⟩
    | (step, none) => stepReport coloured step

def scriptReport (coloured : Bool) (session : Session) (directory : Directory) (path : Path) :
    Report :=
  match readText directory path with
  | .error report => report
  | .ok source => stepReport coloured (session.run source)

/-- Whether a fault of a document is told as a complaint about its file. Numbers that are too large
are not. -/
def isComplaint : DecodeError → Bool
  | .numberTooLarge | .lineInfinite => false
  | _ => true

/-- The tree that a text describes, or the report of a task that cannot go on without it. -/
def readTree (path : Path) (text : String) : Except Report Node :=
  let complain (message : String) : Report :=
    .complain .badData (path.text ++ " is not a valid AST file: " ++ message)
  match Json.read text with
  | .error fault =>
    .error (if fault.complaint = .halfCharacter then ⟨.halfCharacter, "", "", ""⟩
      else complain (fault.message text.toList))
  | .ok document =>
    match Node.ofJson document with
    | .error error =>
      .error (if isComplaint error then complain error.message else .escape (.document error))
    | .ok tree => .ok tree

def treeReport (coloured : Bool) (session : Session) (directory : Directory) (path : Path) :
    Report :=
  match readText directory path with
  | .error report => report
  | .ok text =>
    match readTree path text with
    | .error report => report
    | .ok tree => stepReport coloured (session.runTree tree)

def talkReport (coloured : Bool) (session : Session) (world : World) : Report :=
  let talk := Shell.talk .newline world.breaksOff (Shell.start session) world.input
  let errors := errorsOf coloured talk.events
  let trace := traceOf talk.events
  if talk.brokenOff then ⟨.status .interrupted, talk.output, errors ++ "\n", trace⟩
  else ⟨.status .success, talk.output, errors, trace⟩

/-- What a text is turned into by the task of keeping its tree: the text of the tree file, or the
report of a task that cannot go on. -/
def treeText (coloured : Bool) (path : Path) (source : String) : Except Report String :=
  let program := Program.ofSource source
  let tree := Node.program program.statements
  if !program.errors.isEmpty then
    .error ⟨.status .badData, "", errorsOf coloured (program.errors.map .reported), ""⟩
  else if nestingLimit < tree.depth then
    .error (.complain .badData (path.text ++ " nests too deeply to serialize"))
  else .ok tree.toJson.indented

def treePath (script : Path) : Path :=
  script.extend ".ast.json"

/-- Keeps the tree of a script in a file beside it; also returns the directory with that file. -/
def emitReport (coloured : Bool) (directory : Directory) (path : Path) : Report × Directory :=
  match readText directory path with
  | .error report => (report, directory)
  | .ok source =>
    match treeText coloured path source with
    | .error report => (report, directory)
    | .ok text =>
      match directory.target (treePath path) with
      | .error fault => (.escape (.file fault (treePath path)), directory)
      | .ok place =>
        (⟨.status .success, (treePath path).text ++ "\n", "", ""⟩, directory.putText place text)

/-! ## Commands -/

structure Outcome where
  exit : Exit
  output : String
  errors : String
  directory : Directory

def Report.outcome (report : Report) (directory : Directory) : Outcome :=
  ⟨report.exit, report.output, report.errors, directory⟩

def tracePath : Path := ⟨.here, ["debug.txt"]⟩

/-- Runs a task with a trace kept in the trace file if the level asks for one. -/
def withTrace (level : Nat) (directory : Directory) (task : Directory → Report) : Outcome :=
  if level = 0 then (task directory).outcome directory
  else
    match directory.target tracePath with
    | .error fault => (Report.escape (.file fault tracePath)).outcome directory
    | .ok place =>
      let report := task (directory.putText place "")
      report.outcome (directory.putText place report.trace)

def Request.paths (request : Request) : List Path :=
  let traced := if request.level = 0 then [] else [tracePath]
  match request.task with
  | .emitTree script => [Path.ofText script, treePath (Path.ofText script)]
  | .runTree file | .runScript file => Path.ofText file :: traced
  | .evaluate _ | .talk => traced

def Request.perform (request : Request) (world : World) : Outcome :=
  let coloured := !request.plain && world.coloured
  let session := Session.fresh request.level
  match request.task with
  | .emitTree script =>
    let result := emitReport coloured world.directory (Path.ofText script)
    result.1.outcome result.2
  | .runTree file =>
    withTrace request.level world.directory fun directory =>
      treeReport coloured session directory (Path.ofText file)
  | .evaluate expression =>
    withTrace request.level world.directory fun _ => evaluateReport coloured session expression
  | .runScript script =>
    withTrace request.level world.directory fun directory =>
      scriptReport coloured session directory (Path.ofText script)
  | .talk =>
    withTrace request.level world.directory fun _ => talkReport coloured session world

def Refusal.outcome (world : World) : Refusal → Outcome
  | .help => ⟨.status .success, helpText world.width, "", world.directory⟩
  | .misuse reason =>
    let message := program ++ ": error: " ++ reason.message ++ "\n"
    ⟨.status .misuse, "", usage world.width ++ message, world.directory⟩

def run (world : World) (arguments : List String) : Outcome :=
  match Request.ofArguments arguments with
  | .ok request => request.perform world
  | .error refusal => refusal.outcome world

end Lox.CommandLine
