import Lox.Parser.Statement

/-!
# Parsing with a cursor

The parser once more, as a walk with a cursor over a list of tokens that is never cut. A token is
read by its index, which may be out of range, and the loops only end where a test or a return ends
them: a bound on their turns that is met is a way to stop of its own. The walk writes down each index
that it reads, each place where it puts the cursor, and each turn of a loop with the places where the
cursor stood before and after it.

That the walk comes to its end, and what it returns, is shown where it is compared with the parser
whose state is the list of the tokens left.
-/

namespace Lox.Cursor

open Lox.Parser (leaf? isEqualityOperator isComparisonOperator isTermOperator isFactorOperator
  isUnaryOperator)

/-! ## Walks -/

/-- The loops of the parser: over the declarations of a program or of a block, over the tokens dropped
after a fault or with a statement that nests too deeply, and over the operators of a level. -/
inductive Loop where
  | program
  | block
  | recovery
  | skipping
  | operators
  deriving DecidableEq, Repr

/-- Something that a walk has done: it has read a token, put the cursor on a token, gone through a
turn of a loop back to the test, or left a loop from inside a turn. -/
inductive Deed where
  | read (position : Nat)
  | put (position : Nat)
  | turn (loop : Loop) (start stop : Nat)
  | leave (loop : Loop) (start stop : Nat)
  deriving DecidableEq, Repr

/-- Where the cursor is, the errors reported so far and what has been done, the last one first. -/
structure Walk where
  position : Nat
  reports : List ParseError
  deeds : List Deed

/-- Why a walk stops: at a fault, because the nesting exceeds the limit, because an index is out of
range, or because a loop has taken all its turns. -/
inductive Stop where
  | fault (error : ParseError)
  | tooDeep
  | outOfRange
  | endless

abbrev Walker := EStateM Stop Walk

def Walk.note (walk : Walk) (deed : Deed) : Walk :=
  { walk with deeds := deed :: walk.deeds }

def put (position : Nat) : Walker Unit :=
  modify fun walk => { walk with position }.note (.put position)

def report (error : ParseError) : Walker Unit :=
  modify fun walk => { walk with reports := error :: walk.reports }

/-- How a turn of a loop ends: the loop goes on, it is left from inside, or its test has failed. -/
inductive Turn (α β : Type) where
  | goOn (next : α)
  | leave (result : β)
  | done (result : β)

/-- Repeats a turn until it ends the loop, for a bounded number of turns. -/
def repeated {α β : Type} (loop : Loop) (turn : α → Walker (Turn α β)) : Nat → α → Walker β
  | 0, _ => throw .endless
  | turns + 1, current => do
    let start := (← get).position
    match ← turn current with
    | .goOn next =>
      modify fun walk => walk.note (.turn loop start walk.position)
      repeated loop turn turns next
    | .leave result =>
      modify fun walk => walk.note (.leave loop start walk.position)
      return result
    | .done result => return result

/-- Tells when the nesting exceeds the limit. -/
def attempt {α : Type} (walker : Walker α) : Walker (Option α) := fun walk =>
  match walker walk with
  | .ok a after => .ok (some a) after
  | .error .tooDeep after => .ok none after
  | .error stop after => .error stop after

/-! ## The cursor -/

section

variable (tokens : List Token) (turns : Nat)

def readAt (position : Nat) : Walker Token := fun walk =>
  match tokens[position]? with
  | some t => .ok t (walk.note (.read position))
  | none => .error .outOfRange walk

def peek : Walker Token := do
  readAt tokens (← get).position

def previous : Walker Token := do
  match (← get).position with
  | 0 => throw .outOfRange
  | position + 1 => readAt tokens position

def check (accepts : Kind → Bool) : Walker Bool := do
  return accepts (← peek tokens).kind

def isAtEnd : Walker Bool :=
  check tokens (· = .eof)

/-- Takes the token that the cursor is on. The cursor stays on a token that ends the input. -/
def advance : Walker Token := do
  let t ← peek tokens
  if ← isAtEnd tokens then return t
  else
    put ((← get).position + 1)
    return t

def consume (kind : Kind) (complaint : Complaint) : Walker Token := do
  if ← check tokens (· = kind) then advance tokens
  else throw (.fault ⟨← peek tokens, complaint⟩)

/-! ## Taking up again -/

/-- Drops a token, unless a semicolon was dropped before it or a statement may begin with it. -/
def recoveryTurn (_ : Unit) : Walker (Turn Unit Unit) := do
  if ← isAtEnd tokens then return .done ()
  else if (← previous tokens).kind = .semicolon then return .leave ()
  else if ← check tokens Kind.startsStatement then return .leave ()
  else
    let _ ← advance tokens
    return .goOn ()

def synchronize : Walker Unit := do
  let _ ← advance tokens
  repeated .recovery (recoveryTurn tokens) turns ()

/-- How a turn ends that has dropped a token of a statement, given how many braces are open. -/
def afterSkipping (depth : Int) (kind : Kind) : Turn Int Unit :=
  if kind = .leftBrace then .goOn (depth + 1)
  else if kind = .rightBrace then if depth - 1 ≤ 0 then .leave () else .goOn (depth - 1)
  else if kind = .semicolon ∧ depth = 0 then .leave ()
  else .goOn depth

def skippingTurn (depth : Int) : Walker (Turn Int Unit) := do
  if ← isAtEnd tokens then return .done ()
  else
    let t ← advance tokens
    return afterSkipping depth t.kind

/-- Goes back to the start of a statement and drops it with the blocks in it. -/
def skipStatement (start : Nat) : Walker Unit := do
  put start
  repeated .skipping (skippingTurn tokens) turns 0

/-- Reports a fault in place of the declaration it occurs in and takes up again after it. -/
def recovering (walker : Walker Node) : Walker (Option Node) := fun walk =>
  match walker walk with
  | .ok node after => .ok (some node) after
  | .error (.fault error) after =>
    (do
      report error
      synchronize tokens turns
      return none : Walker (Option Node)) after
  | .error stop after => .error stop after

/-! ## Expressions -/

def operatorTurn (isOperator : Kind → Bool) (operand : Walker Node) (left : Node) :
    Walker (Turn Node Node) := do
  if ← check tokens isOperator then
    let operator ← advance tokens
    let right ← operand
    return .goOn (.binary left (.token operator) right)
  else return .done left

def chain (isOperator : Kind → Bool) (operand : Walker Node) : Walker Node := do
  let first ← operand
  repeated .operators (operatorTurn tokens isOperator operand) turns first

def equality (operand : Walker Node) : Walker Node :=
  chain tokens turns isEqualityOperator (chain tokens turns isComparisonOperator
    (chain tokens turns isTermOperator (chain tokens turns isFactorOperator operand)))

def assignTo (target value : Node) (equals : Token) : Walker Node :=
  match target with
  | .varRef name => return .assign name value
  | _ => throw (.fault ⟨equals, .assignmentTarget⟩)

def primary (expression : Walker Node) : Walker Node := do
  let t ← peek tokens
  match leaf? t with
  | some leaf =>
    let _ ← advance tokens
    return leaf
  | none =>
    if t.kind = .leftParen then
      let _ ← advance tokens
      let inner ← expression
      let _ ← consume tokens .rightParen .parenAfterExpression
      return .grouping inner
    else throw (.fault ⟨t, .expression⟩)

mutual
/-- An expression, within a limit of nesting. -/
def assignment : Nat → Walker Node
  | 0 => throw .tooDeep
  | limit + 1 => do
    let target ← equality tokens turns (unary limit)
    if ← check tokens (· = .equal) then
      let equals ← advance tokens
      let value ← assignment limit
      assignTo target value equals
    else return target
def unary : Nat → Walker Node
  | 0 => throw .tooDeep
  | limit + 1 => do
    if ← check tokens isUnaryOperator then
      let operator ← advance tokens
      let right ← unary limit
      return .unary (.token operator) right
    else primary tokens (assignment limit)
end

def expression (limit : Nat) : Walker Node :=
  assignment tokens turns limit

/-! ## Statements -/

def varDeclaration (expression : Walker Node) : Walker Node := do
  let _ ← advance tokens
  let name ← consume tokens .identifier .variableName
  let initializer ←
    if ← check tokens (· = .equal) then do
      let _ ← advance tokens
      expression
    else pure .absent
  let _ ← consume tokens .semicolon .semicolonAfterDeclaration
  return .varDecl (.token name) initializer

def declaration (expression statement : Walker Node) : Walker (Option Node) :=
  recovering tokens turns do
    if ← check tokens (· = .varWord) then varDeclaration tokens expression else statement

def printStatement (expression : Walker Node) : Walker Node := do
  let _ ← advance tokens
  let value ← expression
  let _ ← consume tokens .semicolon .semicolonAfterValue
  return .printStmt value

def blockTurn (declaration : Walker (Option Node)) (statements : List Node) :
    Walker (Turn (List Node) (List Node)) := do
  if ← check tokens (· = .rightBrace) then return .done statements
  else if ← isAtEnd tokens then return .done statements
  else
    let declared ← declaration
    return .goOn (statements ++ declared.toList)

def blockStatement (declaration : Walker (Option Node)) : Walker Node := do
  let _ ← advance tokens
  let statements ← repeated .block (blockTurn tokens declaration) turns []
  let _ ← consume tokens .rightBrace .braceAfterBlock
  return .block statements

def ifStatement (expression statement : Walker Node) : Walker Node := do
  let _ ← advance tokens
  let _ ← consume tokens .leftParen .parenAfterIf
  let condition ← expression
  let _ ← consume tokens .rightParen .parenAfterIfCondition
  let thenBranch ← statement
  if ← check tokens (· = .elseWord) then
    let _ ← advance tokens
    let elseBranch ← statement
    return .ifStmt condition thenBranch elseBranch
  else return .ifStmt condition thenBranch .absent

def whileStatement (expression statement : Walker Node) : Walker Node := do
  let _ ← advance tokens
  let _ ← consume tokens .leftParen .parenAfterWhile
  let condition ← expression
  let _ ← consume tokens .rightParen .parenAfterCondition
  let body ← statement
  return .whileStmt condition body

def expressionStatement (expression : Walker Node) : Walker Node := do
  let value ← expression
  let _ ← consume tokens .semicolon .semicolonAfterExpression
  return .exprStmt value

def statement : Nat → Walker Node
  | 0 => throw .tooDeep
  | limit + 1 => do
    let expression := expression tokens turns limit
    if ← check tokens (· = .printWord) then printStatement tokens expression
    else if ← check tokens (· = .leftBrace) then
      blockStatement tokens turns (declaration tokens turns expression (statement limit))
    else if ← check tokens (· = .ifWord) then ifStatement tokens expression (statement limit)
    else if ← check tokens (· = .whileWord) then whileStatement tokens expression (statement limit)
    else expressionStatement tokens expression

/-! ## Programs -/

/-- Adds a declaration to those of a program. One that nests too deeply costs one error, at the token
where the limit was met, and is skipped from its start. -/
def programTurn (declaration : Walker (Option Node)) (statements : List Node) :
    Walker (Turn (List Node) (List Node)) := do
  if ← isAtEnd tokens then return .done statements
  else
    let start := (← get).position
    match ← attempt declaration with
    | some declared => return .goOn (statements ++ declared.toList)
    | none =>
      report ⟨← peek tokens, .nesting⟩
      skipStatement tokens turns start
      return .goOn statements

def program (limit : Nat) : Walker (List Node) :=
  let declaration := declaration tokens turns (expression tokens turns limit)
    (statement tokens turns limit)
  repeated .program (programTurn tokens turns declaration) turns []

end

/-- A list of tokens with a token behind it that ends the input, on the line of the last one, unless
it ends with such a token. -/
def ended (tokens : List Token) : List Token :=
  match tokens.getLast? with
  | none => [Token.endAt 1]
  | some last => if last.kind = .eof then tokens else tokens ++ [Token.endAt last.line]

/-- Parses a list of tokens as a program, within a limit of nesting and with a bound on the turns of
each loop. -/
def parse (limit turns : Nat) (tokens : List Token) : EStateM.Result Stop Walk (List Node) :=
  program (ended tokens) turns limit ⟨0, [], []⟩

end Lox.Cursor
