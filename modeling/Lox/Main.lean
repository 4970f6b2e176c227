import Lox.CommandLine.Run

/-!
# The program

Fetches what a command may need from the file system, the environment and the input, runs the
command and carries out what it leaves behind. A conversation goes line by line, so that every
answer is seen before the next line is written.
-/

namespace Lox.Terminal

/-- What stands at a path of the file system. -/
def entryAt (path : Path) : IO (Option Entry) := do
  try
    return some (.file (← IO.FS.readBinFile path.text))
  catch error =>
    match error with
    | .inappropriateType _ 21 _ => return some .folder
    | _ => return none

/-- The directory with all that stands along a path. -/
def fetch (directory : Directory) (path : Path) : IO Directory := do
  let mut known := directory
  for count in List.range path.parts.length do
    let front := { path with parts := path.parts.take (count + 1) }
    match known.locate front, ← entryAt front with
    | .ok place, some entry => known := known.put place entry
    | _, _ => pure ()
  return known

def store (directory before : Directory) : IO Unit := do
  for change in directory.changes before do
    IO.FS.writeBinFile change.1.text change.2

/-- The variables of the environment that matter. -/
def fetchEnvironment : IO (List (String × String)) := do
  let names := ["ANSI_COLORS_DISABLED", "NO_COLOR", "FORCE_COLOR", "COLUMNS"]
  names.filterMapM fun name => return (← IO.getEnv name).map (name, ·)

/-- The number with which a command exits; a fault is told first. -/
def exitCode : CommandLine.Exit → IO UInt32
  | .status status => return status.code.toUInt32
  | .escaped fault => do
    IO.eprintln fault.message
    return 1
  | .unfinished | .halfCharacter => return 1

/-- Carries out what a command leaves behind. -/
def finish (before : Directory) (outcome : CommandLine.Outcome) : IO UInt32 := do
  IO.print outcome.output
  IO.eprint outcome.errors
  store outcome.directory before
  exitCode outcome.exit

/-- Reads one line, without its newline; the end of the input reads as the end mark. -/
def nextLine : IO String := do
  let line ← (← IO.getStdin).getLine
  if line.isEmpty then return Shell.endMark
  else return String.ofList (Shell.LineEnd.newline.trim line.toList)

/-- Talks with the user until the shell ends; returns the trace. -/
def converse (coloured : Bool) (session : Session) : IO String := do
  let output ← IO.getStdout
  output.putStrLn Shell.intro
  let mut shell := Shell.start session
  let mut trace := ""
  repeat
    output.putStr shell.prompt.text
    output.flush
    let step := shell.feed (← nextLine)
    output.putStr (outputOf step.events)
    IO.eprint (errorsOf coloured step.events)
    trace := trace ++ traceOf step.events
    shell := step.shell
    if step.stop then break
  return trace

def serve (request : CommandLine.Request) : IO UInt32 := do
  let directory ← request.paths.foldlM fetch Directory.empty
  let world : CommandLine.World := ⟨directory, ← fetchEnvironment, "", false⟩
  match request.task with
  | .talk =>
    let trace ← converse (!request.plain && world.coloured) (Session.fresh request.level)
    let outcome := CommandLine.withTrace request.level directory fun _ =>
      ⟨.status .success, "", "", trace⟩
    finish directory outcome
  | _ => finish directory (request.perform world)

end Lox.Terminal

def main (arguments : List String) : IO UInt32 := do
  match Lox.CommandLine.Request.ofArguments arguments with
  | .ok request => Lox.Terminal.serve request
  | .error refusal =>
    let world := ⟨.empty, ← Lox.Terminal.fetchEnvironment, "", false⟩
    Lox.Terminal.finish .empty (refusal.outcome world)
