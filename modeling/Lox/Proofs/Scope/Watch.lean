import Lox.Proofs.Run.Steps
import Lox.Proofs.Scope.Site

/-!
# Runs that are led by the text

A second way to run a program. It is told at every node where the node stands, which is handed down
the tree and owes nothing to the state, and it takes every variable from the scope that the site of
the variable tells, without a search through the scopes of blocks. At every statement that it begins
and at every variable that it reads or assigns it writes down the site and the scopes of that moment.

Nothing is proved here. That this is how the programs of the parser run is shown by comparing the
two ways to run them, one construct after the other.
-/

namespace Lox

/-- A moment of a run: the node that is about to act, where it stands, and the scopes. -/
structure Visit where
  site : Site
  node : Node
  scopes : Scopes

/-- A machine and what was seen of its run so far, the last first. -/
structure Watch where
  machine : Machine
  visits : List Visit

def Watch.mapScopes (change : Scopes → Scopes) (watch : Watch) : Watch :=
  { watch with machine := { watch.machine with scopes := change watch.machine.scopes } }

abbrev Watching := EStateM Halt Watch

namespace Watching

def perform {α : Type} (action : Action α) : Watching α := fun watch =>
  match action watch.machine with
  | .ok value machine => .ok value { watch with machine }
  | .error halt machine => .error halt { watch with machine }

def visit (site : Site) (node : Node) : Watching Unit :=
  modify fun watch => { watch with visits := ⟨site, node, watch.machine.scopes⟩ :: watch.visits }

/-- Runs something in a new innermost scope, which is dropped on every way out. -/
def inScope {α : Type} (watching : Watching α) : Watching α := fun watch =>
  match watching (watch.mapScopes ([] :: ·)) with
  | .ok value after => .ok value (after.mapScopes List.tail)
  | .error halt after => .error halt (after.mapScopes List.tail)

def lookUpAt (site : Site) (node : Node) : Action Value := do
  let (t, name) ← Action.nameIn node
  match site.get? name (← get).scopes with
  | some value => pure value
  | none => throw (.error (.undefinedVariable t))

def assignAt (setting : Setting) (site : Site) (node : Node) (value : Value) : Action Unit := do
  let (t, name) ← Action.nameIn node
  let machine ← get
  match site.assign? name value machine.scopes with
  | some scopes =>
    set { machine with scopes }
    Action.trace setting 2 fun _ => "assign " ++ t.text ++ " = " ++ value.display
  | none => throw (.error (.undefinedVariable t))

def repeatWhile (condition : Watching Bool) (body : Watching Unit) : Nat → Watching Unit
  | 0 => throw .outOfTurns
  | turns + 1 => do
    if ← condition then
      body
      repeatWhile condition body turns
    else pure ()

/-- Runs the statements of a block, each with those that come before it. -/
def inOrder (run : List Node → Node → Watching Unit) (before : List Node) :
    List Node → Watching Unit
  | [] => pure ()
  | node :: rest => do
    run before node
    inOrder run (before ++ [node]) rest

def evaluate (setting : Setting) (site : Site) : Nat → Node → Watching Value
  | 0, _ => throw .tooDeep
  | limit + 1, node => do
    let value ← (match node with
      | .literal value => pure value
      | .grouping inner => evaluate setting site limit inner
      | .varRef name => do
        visit site node
        perform (lookUpAt site name)
      | .assign name value => do
        let value ← evaluate setting site limit value
        visit site node
        perform (assignAt setting site name value)
        return value
      | .unary operator right => do
        let operand ← evaluate setting site limit right
        perform do
          let operator ← Action.tokenIn "kind" operator
          Action.ofExcept (applyUnary operator operand)
      | .binary left operator right => do
        let left ← evaluate setting site limit left
        let right ← evaluate setting site limit right
        perform do
          let operator ← Action.tokenIn "kind" operator
          Action.ofExcept (applyBinary operator left right)
      | other => throw (.fault (.notEvaluable other.typeName)))
    perform (Action.trace setting 4 fun _ =>
      "evaluate " ++ node.typeName ++ " -> " ++ value.display)
    return value

def evaluateInitializer (setting : Setting) (site : Site) (limit : Nat) : Node → Watching Value
  | .absent => pure .nil
  | initializer => evaluate setting site limit initializer

def execute (setting : Setting) (site : Site) : Nat → Node → Watching Unit
  | 0, _ => throw .tooDeep
  | limit + 1, node => do
    visit site node
    match node with
    | .exprStmt expression => do
      let _ ← evaluate setting site limit expression
    | .printStmt expression => do
      let value ← evaluate setting site limit expression
      perform (modify (·.note (.printed value.display)))
    | .varDecl name initializer => do
      let value ← evaluateInitializer setting site limit initializer
      perform (Action.declare setting name value)
    | .block statements => inScope do
      let depth := (← get).machine.scopes.depth
      perform (Action.trace setting 3 fun _ => "enter block at depth " ++ toString depth)
      inOrder (fun before => execute setting (before :: site) limit) [] statements
      perform (Action.trace setting 3 fun _ => "leave block at depth " ++ toString depth)
    | .ifStmt condition thenBranch elseBranch => do
      let value ← evaluate setting site limit condition
      perform (Action.trace setting 3 fun _ =>
        "if condition " ++ value.display ++ " -> " ++ (Value.boolean value.isTruthy).display)
      if value.isTruthy then execute setting site limit thenBranch
      else
        match elseBranch with
        | .absent => pure ()
        | other => execute setting site limit other
    | .whileStmt condition body =>
      let holds : Watching Bool := do
        let value ← evaluate setting site limit condition
        perform (Action.trace setting 3 fun _ => "while condition " ++ value.display)
        return value.isTruthy
      repeatWhile holds (execute setting site limit body) setting.turns
    | other => throw (.fault (.notExecutable other.typeName))

def interpret (setting : Setting) (limit : Nat) : List Node → Watch → Ending × Watch
  | [], watch => (.finished, watch)
  | node :: rest, watch =>
    let started :=
      { watch with machine := watch.machine.trace setting 1 fun _ => "execute " ++ node.typeName }
    match execute setting [] limit node started with
    | .ok _ after => interpret setting limit rest after
    | .error (.error error) after =>
      interpret setting limit rest { after with machine := after.machine.fail setting error }
    | .error .tooDeep after =>
      interpret setting limit rest
        { after with machine := after.machine.fail setting (.nestingTooDeep node.line) }
    | .error (.fault fault) after => (.faulted fault, after)
    | .error .outOfTurns after => (.unfinished, after)

end Watching

end Lox
