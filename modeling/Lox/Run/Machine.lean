import Lox.Node.Line
import Lox.Run.Operator
import Lox.Scope.Basic

/-!
# Running trees

A machine has a chain of scopes and a log of what happened. Expressions are evaluated strictly and
from left to right. A statement that fails leaves behind what it did before, but the scopes of the
blocks it was in are dropped on every way out.

Two bounds keep every run finite: one on the nesting of the tree, and one on the number of turns
that a single loop may take. The first is part of the language; the second stands for how long one
is ready to wait.
-/

namespace Lox

/-- Something that happened during a run. A trace message carries the level from which it is
shown. -/
inductive Event where
  | printed (text : String)
  | reported (error : Diagnostic)
  | traced (level : Nat) (message : String)
  deriving Repr

/-- Why a tree that was not made by the parser cannot be run. -/
inductive TreeFault where
  | notExecutable (type : String)
  | notEvaluable (type : String)
  | noAttribute (type part : String)
  | notAName (type : String)
  deriving DecidableEq, Repr

def TreeFault.message : TreeFault → String
  | notExecutable type => "Unsupported node for execution: " ++ type
  | notEvaluable type => "Unsupported node for evaluation: " ++ type
  | noAttribute type part =>
    "'" ++ type ++ "' object has no attribute '" ++ part ++ "'"
  | notAName type => "unhashable type: '" ++ type ++ "'"

/-- The state of a run: the scopes, the innermost first, and the log, the last event first. -/
structure Machine where
  scopes : Scopes
  log : List Event

/-- Why a run stops before its end. -/
inductive Halt where
  | error (error : RuntimeError)
  | fault (fault : TreeFault)
  | tooDeep
  | outOfTurns
  deriving Repr

/-- A computation on a machine that may stop early; what it did until then stays done. -/
abbrev Action := EStateM Halt Machine

/-- How a program is run: the level of the trace and the turns that a loop may take. -/
structure Setting where
  level : Nat
  turns : Nat

namespace Machine

def note (machine : Machine) (event : Event) : Machine :=
  { machine with log := event :: machine.log }

/-- Adds a trace message, made only if the setting asks for its level. -/
def trace (setting : Setting) (level : Nat) (message : Unit → String) (machine : Machine) :
    Machine :=
  if level ≤ setting.level then machine.note (.traced level (message ())) else machine

def fail (setting : Setting) (error : RuntimeError) (machine : Machine) : Machine :=
  (machine.trace setting 1 fun _ => "runtime error " ++ (Diagnostic.runtime error).describe).note
    (.reported (.runtime error))

end Machine

namespace Action

/-- Adds a trace message, made only if the setting asks for its level. -/
def trace (setting : Setting) (level : Nat) (message : Unit → String) : Action Unit :=
  modify (Machine.trace setting level message)

def ofExcept {α : Type} : Except RuntimeError α → Action α
  | .ok value => pure value
  | .error error => throw (.error error)

/-- The token in a place of the tree where a part of it is needed. -/
def tokenIn (part : String) : Node → Action Token
  | .token t => pure t
  | other => throw (.fault (.noAttribute other.typeName part))

/-- The token in a place of the tree where a name is needed, and its name. -/
def nameIn (node : Node) : Action (Token × Name) := do
  let t ← tokenIn "lexeme" node
  match Name.ofJson? t.lexeme with
  | some name => pure (t, name)
  | none => throw (.fault (.notAName t.lexeme.typeName))

def lookUp (node : Node) : Action Value := do
  let (t, name) ← nameIn node
  match (← get).scopes.get? name with
  | some value => pure value
  | none => throw (.error (.undefinedVariable t))

def assign (setting : Setting) (node : Node) (value : Value) : Action Unit := do
  let (t, name) ← nameIn node
  let machine ← get
  match machine.scopes.assign? name value with
  | some scopes =>
    set { machine with scopes }
    trace setting 2 fun _ => "assign " ++ t.text ++ " = " ++ value.display
  | none => throw (.error (.undefinedVariable t))

def declare (setting : Setting) (node : Node) (value : Value) : Action Unit := do
  let (t, name) ← nameIn node
  modify fun machine => { machine with scopes := machine.scopes.define name value }
  trace setting 2 fun _ =>
    "declare " ++ t.text ++ ": " ++ value.typeName ++ " = " ++ value.display

/-- Runs an action in a new innermost scope, which is dropped on every way out. -/
def inScope {α : Type} (action : Action α) : Action α := fun machine =>
  match action { machine with scopes := [] :: machine.scopes } with
  | .ok value after => .ok value { after with scopes := after.scopes.tail }
  | .error halt after => .error halt { after with scopes := after.scopes.tail }

/-- Repeats a body while a condition holds, for a bounded number of turns. -/
def repeatWhile (condition : Action Bool) (body : Action Unit) : Nat → Action Unit
  | 0 => throw .outOfTurns
  | turns + 1 => do
    if ← condition then
      body
      repeatWhile condition body turns
    else pure ()

end Action

open Lox.Action

/-- The value of an expression, within a limit of nesting. -/
def evaluate (setting : Setting) : Nat → Node → Action Value
  | 0, _ => throw .tooDeep
  | limit + 1, node => do
    let value ← (match node with
      | .literal value => pure value
      | .grouping inner => evaluate setting limit inner
      | .varRef name => lookUp name
      | .assign name value => do
        let value ← evaluate setting limit value
        assign setting name value
        return value
      | .unary operator right => do
        let operand ← evaluate setting limit right
        let operator ← tokenIn "kind" operator
        ofExcept (applyUnary operator operand)
      | .binary left operator right => do
        let left ← evaluate setting limit left
        let right ← evaluate setting limit right
        let operator ← tokenIn "kind" operator
        ofExcept (applyBinary operator left right)
      | other => throw (.fault (.notEvaluable other.typeName)))
    trace setting 4 fun _ => "evaluate " ++ node.typeName ++ " -> " ++ value.display
    return value

/-- The value that a declaration gives its variable: `nil` unless there is an initializer. -/
def evaluateInitializer (setting : Setting) (limit : Nat) : Node → Action Value
  | .absent => pure .nil
  | initializer => evaluate setting limit initializer

/-- Runs a statement, within a limit of nesting. -/
def execute (setting : Setting) : Nat → Node → Action Unit
  | 0, _ => throw .tooDeep
  | limit + 1, node =>
    match node with
    | .exprStmt expression => do
      let _ ← evaluate setting limit expression
    | .printStmt expression => do
      let value ← evaluate setting limit expression
      modify (·.note (.printed value.display))
    | .varDecl name initializer => do
      let value ← evaluateInitializer setting limit initializer
      declare setting name value
    | .block statements => inScope do
      let depth := (← get).scopes.depth
      trace setting 3 fun _ => "enter block at depth " ++ toString depth
      statements.forM (execute setting limit)
      trace setting 3 fun _ => "leave block at depth " ++ toString depth
    | .ifStmt condition thenBranch elseBranch => do
      let value ← evaluate setting limit condition
      trace setting 3 fun _ =>
        "if condition " ++ value.display ++ " -> " ++ (Value.boolean value.isTruthy).display
      if value.isTruthy then execute setting limit thenBranch
      else
        match elseBranch with
        | .absent => pure ()
        | other => execute setting limit other
    | .whileStmt condition body =>
      let holds : Action Bool := do
        let value ← evaluate setting limit condition
        trace setting 3 fun _ => "while condition " ++ value.display
        return value.isTruthy
      repeatWhile holds (execute setting limit body) setting.turns
    | other => throw (.fault (.notExecutable other.typeName))

/-! ## Top-level statements -/

/-- How a run ends: all statements were run, one was no statement, or a loop took too many turns. -/
inductive Ending where
  | finished
  | faulted (fault : TreeFault)
  | unfinished
  deriving DecidableEq, Repr

/-- What one statement of a program does: the machine after it, and how the run ends if it ends
there. An error ends only the statement it occurs in. -/
def topStatement (setting : Setting) (limit : Nat) (node : Node) (machine : Machine) :
    Machine × Option Ending :=
  match execute setting limit node
    (machine.trace setting 1 fun _ => "execute " ++ node.typeName) with
  | .ok _ after => (after, none)
  | .error (.error error) after => (after.fail setting error, none)
  | .error .tooDeep after => (after.fail setting (.nestingTooDeep node.line), none)
  | .error (.fault fault) after => (after, some (.faulted fault))
  | .error .outOfTurns after => (after, some .unfinished)

/-- Runs statements one after the other. -/
def interpret (setting : Setting) (limit : Nat) : List Node → Machine → Ending × Machine
  | [], machine => (.finished, machine)
  | node :: rest, machine =>
    match topStatement setting limit node machine with
    | (after, none) => interpret setting limit rest after
    | (after, some ending) => (ending, after)

end Lox
