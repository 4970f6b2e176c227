import Lox.Node.Document
import Lox.Parser.Statement
import Lox.Run.Transcript

/-!
# Sessions

A session runs one source text after another. Its global variables outlive each run, and so do the
errors that were reported, until they are forgotten. Reading and running are told for any limit of
nesting, and a session does both within the same one.
-/

namespace Lox

def nestingLimit : Nat := 1000

def turnLimit : Nat := 1000000000000000

/-- The statements of a source text and the errors found while reading it. -/
structure Program where
  statements : List Node
  errors : List Diagnostic

/-- Reads a source text: errors of the scanner come before those of the parser. -/
def Program.under (limit : Nat) (source : String) : Program :=
  let scanned := scan source
  let parsed := parse limit scanned.tokens
  ⟨parsed.statements, scanned.errors.map .scan ++ parsed.errors.map .parse⟩

def Program.ofSource (source : String) : Program :=
  under nestingLimit source

/-- The state of a session: the level of its trace, its global variables and the errors it holds. -/
structure Session where
  level : Nat
  globals : Bindings
  held : List Diagnostic

structure Step where
  session : Session
  events : List Event
  ending : Ending

namespace Session

def fresh (level : Nat) : Session :=
  ⟨level, [], []⟩

def setting (session : Session) : Setting :=
  ⟨session.level, turnLimit⟩

def reset (session : Session) : Session :=
  { session with held := [] }

def close (session : Session) : Session :=
  { session with level := 0 }

/-- Whether the source of a program was found wrong. -/
def hadError (session : Session) : Bool :=
  session.held.any fun error => !error.isRuntime

def hadRuntimeError (session : Session) : Bool :=
  session.held.any fun error => error.isRuntime

/-- The session after some events, with the global variables of a machine. -/
def after (session : Session) (machine : Machine) (events : List Event) : Session :=
  { session with
    globals := machine.scopes.getLastD session.globals
    held := session.held ++ reportsOf events }

/-- Runs statements in new scopes within the global one, after reporting some errors; also returns
the scopes as they are left. -/
def runUnder (limit : Nat) (session : Session) (inner : Scopes) (program : Program) :
    Step × Scopes :=
  let result := interpret session.setting limit program.statements ⟨inner ++ [session.globals], []⟩
  let events := program.errors.map .reported ++ result.2.log.reverse
  (⟨session.after result.2 events, events, result.1⟩, result.2.scopes)

def runWithin (session : Session) (inner : Scopes) (program : Program) : Step × Scopes :=
  session.runUnder nestingLimit inner program

/-- Runs a source text. Statements without errors are run even if others have some. -/
def run (session : Session) (source : String) : Step :=
  (session.runWithin [] (Program.ofSource source)).1

/-- Runs a source text in a new scope within the global one; also returns what that scope binds. -/
def runScoped (session : Session) (source : String) : Step × Bindings :=
  let result := session.runWithin [[]] (Program.ofSource source)
  (result.1, result.2.headD [])

/-- Runs the statements of a tree. The declarations of a block become global too. -/
def runTree (session : Session) (tree : Node) : Step :=
  match tree with
  | .program statements | .block statements => (session.runWithin [] ⟨statements, []⟩).1
  | other => ⟨session, [], .faulted (.noAttribute other.typeName "statements")⟩

def reporting (session : Session) (errors : List Diagnostic) : Step :=
  ⟨{ session with held := session.held ++ errors }, errors.map .reported, .finished⟩

def evaluateNodeUnder (limit : Nat) (session : Session) (node : Node) : Step × Option Value :=
  let finish (machine : Machine) (ending : Ending) : Step :=
    let events := machine.log.reverse
    ⟨session.after machine events, events, ending⟩
  match Lox.evaluate session.setting limit node ⟨[session.globals], []⟩ with
  | .ok value machine => (finish machine .finished, some value)
  | .error (.error error) machine => (finish (machine.fail session.setting error) .finished, none)
  | .error .tooDeep machine =>
    (finish (machine.fail session.setting (.nestingTooDeep node.line)) .finished, none)
  | .error (.fault fault) machine => (finish machine (.faulted fault), none)
  | .error .outOfTurns machine => (finish machine .unfinished, none)

def evaluateNode (session : Session) (node : Node) : Step × Option Value :=
  session.evaluateNodeUnder nestingLimit node

/-- Evaluates a source text that holds one expression. There is no value if an error was reported:
the errors of the scanner, or the first one of the parser, or the one that ended the evaluation. -/
def evaluateUnder (limit : Nat) (session : Session) (source : String) : Step × Option Value :=
  let scanned := scan source
  if scanned.errors.isEmpty then
    match parseExpression limit scanned.tokens with
    | .ok node => session.evaluateNodeUnder limit node
    | .error error => (session.reporting [.parse error], none)
  else (session.reporting (scanned.errors.map .scan), none)

def evaluate (session : Session) (source : String) : Step × Option Value :=
  session.evaluateUnder nestingLimit source

end Session

end Lox
