import Lox.Session
import Lox.Text.Blank

/-!
# The interactive shell

The shell runs a session line by line. Lines are held back while they leave a block open, and the
prompt then changes. The words `exit` and `quit` end the shell unless lines are held back; the end
of the input ends it too, after what was held back has been run.
-/

namespace Lox

/-- What invites the next line: a new statement, or more of an unfinished one. -/
inductive Prompt where
  | main
  | more
  deriving DecidableEq, Repr

def Prompt.text : Prompt → String
  | main => "> "
  | more => ". "

/-- The state of a shell: its session, the lines held back and the prompt. -/
structure Shell where
  session : Session
  pending : String
  prompt : Prompt

/-- What one line does to a shell, and whether the shell ends with it. -/
structure ShellStep where
  shell : Shell
  events : List Event
  stop : Bool

namespace Shell

def intro : String :=
  "treelox interpreter\nType 'exit' or 'quit' to leave."

/-- The line that stands for the end of the input. -/
def endMark : String := "EOF"

def start (session : Session) : Shell :=
  ⟨session, "", .main⟩

def openBlocks (source : String) : Int :=
  openBraces (scan source).tokens

def isLeave (line : String) : Bool :=
  Text.strip line = "exit" || Text.strip line = "quit"

def runSource (shell : Shell) (source : String) : Step :=
  shell.session.reset.run source

/-- Takes the end of the input: ends the line, and runs what was held back so that its errors
show. -/
def finish (shell : Shell) : ShellStep :=
  if shell.pending.isEmpty then ⟨shell, [.printed ""], true⟩
  else
    let step := shell.runSource shell.pending
    ⟨{ shell with session := step.session, pending := "" }, .printed "" :: step.events, true⟩

/-- Takes a line of source text: runs it with the lines held back, or holds it back too. -/
def accept (shell : Shell) (line : String) : ShellStep :=
  let source := shell.pending ++ line ++ "\n"
  if 0 < openBlocks source then ⟨{ shell with pending := source, prompt := .more }, [], false⟩
  else
    let step := shell.runSource source
    ⟨⟨step.session, "", .main⟩, step.events, false⟩

def feed (shell : Shell) (line : String) : ShellStep :=
  if line = endMark then shell.finish
  else if shell.pending.isEmpty && isLeave line then ⟨shell, [], true⟩
  else if shell.pending.isEmpty && (Text.strip line).isEmpty then ⟨shell, [], false⟩
  else shell.accept line

/-! ## Conversations -/

/-- What is taken off the end of an input line: its newline alone, or all newlines and carriage
returns. -/
inductive LineEnd where
  | newline
  | allReturns
  deriving DecidableEq, Repr

/-- A line without the characters that end it. -/
def LineEnd.trim : LineEnd → List Char → List Char
  | newline, line => line.takeWhile (· != '\n')
  | allReturns, line => (line.reverse.dropWhile fun c => c = '\r' || c = '\n').reverse

/-- The first line of an input, up to and with its newline, and the input after it. -/
def splitLine (input : List Char) : List Char × List Char :=
  let line := input.takeWhile (· != '\n')
  match input.dropWhile (· != '\n') with
  | newline :: rest => (line ++ [newline], rest)
  | [] => (line, [])

/-- What a conversation leaves behind. It was broken off if it asked for input past the end where no
end of the input is given. -/
structure Talk where
  shell : Shell
  output : String
  events : List Event
  unread : List Char
  brokenOff : Bool

/-- Talks for up to `count` lines: prompts, reads a line, feeds it. At the end of the input the end
mark is fed, unless the conversation breaks off there. -/
def talkFor (lineEnd : LineEnd) (breaksOff : Bool) : Nat → Shell → List Char → Talk
  | 0, shell, input => ⟨shell, "", [], input, false⟩
  | count + 1, shell, input =>
    if input.isEmpty && breaksOff then ⟨shell, shell.prompt.text, [], [], true⟩
    else
      let split := splitLine input
      let line := if input.isEmpty then endMark else String.ofList (lineEnd.trim split.1)
      let step := shell.feed line
      let output := shell.prompt.text ++ outputOf step.events
      if step.stop then ⟨step.shell, output, step.events, split.2, false⟩
      else
        let rest := talkFor lineEnd breaksOff count step.shell split.2
        { rest with output := output ++ rest.output, events := step.events ++ rest.events }

/-- A whole conversation on an input, from the greeting on. It takes one line more than there are
characters at most. -/
def talk (lineEnd : LineEnd) (breaksOff : Bool) (shell : Shell) (input : String) : Talk :=
  let chars := input.toList
  let rest := talkFor lineEnd breaksOff (chars.length + 1) shell chars
  { rest with output := intro ++ "\n" ++ rest.output }

end Shell

end Lox
