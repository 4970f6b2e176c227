import Lox.Parser.Expression

/-!
# Parsing statements

    program     := declaration*
    declaration := "var" identifier ("=" expression)? ";" | statement
    statement   := "print" expression ";"
                 | "{" declaration* "}"
                 | "if" "(" expression ")" statement ("else" statement)?
                 | "while" "(" expression ")" statement
                 | expression ";"

A fault ends the innermost declaration around it: it is reported, tokens are dropped up to the next
place where a statement may begin, and parsing goes on from there. Nesting beyond the limit is not
recovered from inside; it ends the statement at the top level, which is then skipped as a whole.
-/

namespace Lox

namespace Parser

/-- The tokens left and the faults reported so far, the last one first. -/
structure Progress where
  rest : List Token
  reports : List Fault

abbrev StmtParser := EStateM Halt Progress

/-- A parser of expressions among statements; it reports nothing. -/
def quietly {α : Type} (parser : ExprParser α) : StmtParser α := fun state =>
  match parser state.rest with
  | .ok value rest => .ok value { state with rest }
  | .error halt rest => .error halt { state with rest }

def nextKind : StmtParser (Option Kind) := do
  return (← get).rest.head?.map (·.kind)

def advance : StmtParser Unit :=
  modify fun state => { state with rest := state.rest.tail }

/-! ## Taking up again -/

/-- Whether some tokens begin with a token that may start a statement. -/
def atStatement : List Token → Bool :=
  beginsWith Kind.startsStatement

/-- Drops the first token, and more of them until a semicolon was dropped or a statement may
begin. -/
def synchronize : List Token → List Token
  | [] => []
  | t :: rest => if t.kind = .semicolon || atStatement rest then rest else synchronize rest

/-- Reports a fault in place of the declaration it occurs in and takes up again after it. -/
def recovering (parser : StmtParser Node) : StmtParser (Option Node) := fun state =>
  match parser state with
  | .ok node after => .ok (some node) after
  | .error (.fault fault) after =>
    .ok none { rest := synchronize after.rest, reports := fault :: after.reports }
  | .error .tooDeep after => .error .tooDeep after

/-- Drops a statement with the blocks in it: up to a semicolon outside of braces, or up to the brace
that closes the first one opened; `depth` braces are open. -/
def skipStatement (depth : Nat) : List Token → List Token
  | [] => []
  | t :: rest =>
    match t.kind with
    | .leftBrace => skipStatement (depth + 1) rest
    | .rightBrace => if depth ≤ 1 then rest else skipStatement (depth - 1) rest
    | .semicolon => if depth = 0 then rest else skipStatement depth rest
    | _ => skipStatement depth rest

/-! ## The statements -/

def varDeclaration (expression : ExprParser Node) : StmtParser Node := do
  advance
  let name ← quietly (expect .identifier .variableName)
  let initializer ←
    if (← nextKind) = some .equal then do
      advance
      quietly expression
    else pure .absent
  let _ ← quietly (expect .semicolon .semicolonAfterDeclaration)
  return .varDecl (.token name) initializer

/-- A declaration, if it has no fault. -/
def declaration (expression : ExprParser Node) (statement : StmtParser Node) :
    StmtParser (Option Node) :=
  recovering do
    if (← nextKind) = some .varWord then varDeclaration expression else statement

/-- Up to `count` declarations, up to a closing brace or the end. -/
def declarations (declaration : StmtParser (Option Node)) : Nat → StmtParser (List Node)
  | 0 => pure []
  | count + 1 => do
    match ← nextKind with
    | none | some .rightBrace => pure []
    | some _ =>
      let first ← declaration
      let rest ← declarations declaration count
      return first.toList ++ rest

def printStatement (expression : ExprParser Node) : StmtParser Node := do
  advance
  let value ← quietly expression
  let _ ← quietly (expect .semicolon .semicolonAfterValue)
  return .printStmt value

/-- A block, from its brace. It has at most as many declarations as there are tokens. -/
def blockStatement (declaration : StmtParser (Option Node)) : StmtParser Node := do
  advance
  let statements ← declarations declaration (← get).rest.length
  let _ ← quietly (expect .rightBrace .braceAfterBlock)
  return .block statements

def ifStatement (expression : ExprParser Node) (statement : StmtParser Node) :
    StmtParser Node := do
  advance
  let _ ← quietly (expect .leftParen .parenAfterIf)
  let condition ← quietly expression
  let _ ← quietly (expect .rightParen .parenAfterIfCondition)
  let thenBranch ← statement
  if (← nextKind) = some .elseWord then
    advance
    let elseBranch ← statement
    return .ifStmt condition thenBranch elseBranch
  else return .ifStmt condition thenBranch .absent

def whileStatement (expression : ExprParser Node) (statement : StmtParser Node) :
    StmtParser Node := do
  advance
  let _ ← quietly (expect .leftParen .parenAfterWhile)
  let condition ← quietly expression
  let _ ← quietly (expect .rightParen .parenAfterCondition)
  let body ← statement
  return .whileStmt condition body

def expressionStatement (expression : ExprParser Node) : StmtParser Node := do
  let value ← quietly expression
  let _ ← quietly (expect .semicolon .semicolonAfterExpression)
  return .exprStmt value

def statement : Nat → StmtParser Node
  | 0 => throw .tooDeep
  | limit + 1 => do
    match ← nextKind with
    | some .printWord => printStatement (expression limit)
    | some .leftBrace => blockStatement (declaration (expression limit) (statement limit))
    | some .ifWord => ifStatement (expression limit) (statement limit)
    | some .whileWord => whileStatement (expression limit) (statement limit)
    | _ => expressionStatement (expression limit)

/-! ## Programs -/

/-- Up to `count` top-level declarations with the faults met on the way. A declaration that nests
too deeply costs one fault, at the token where the limit was met, and is skipped from its start. -/
def topLevel (limit : Nat) : Nat → Progress → List Node × List Fault
  | 0, state => ([], state.reports)
  | count + 1, state =>
    if state.rest.isEmpty then ([], state.reports)
    else
      match declaration (expression limit) (statement limit) state with
      | .ok node after =>
        let others := topLevel limit count after
        (node.toList ++ others.1, others.2)
      | .error (.fault fault) after =>
        topLevel limit count
          { rest := synchronize after.rest, reports := fault :: after.reports }
      | .error .tooDeep after =>
        topLevel limit count
          { rest := skipStatement 0 state.rest, reports := ⟨after.rest, .nesting⟩ :: after.reports }

/-- The error that a fault is, given the token that ends the input. -/
def Fault.toError (fault : Fault) (last : Token) : ParseError :=
  ⟨fault.found.headD last, fault.complaint⟩

end Parser

/-- The tokens before the first one of the kind `eof`, and that one. One is made up on the line of
the last token if there is none. -/
def beforeEnd (tokens : List Token) : List Token × Token :=
  let body := tokens.takeWhile (·.kind != .eof)
  match tokens.dropWhile (·.kind != .eof) with
  | last :: _ => (body, last)
  | [] => (body, Token.endAt ((tokens.getLast?.map (·.line)).getD 1))

structure Parse where
  statements : List Node
  errors : List ParseError

def parse (limit : Nat) (tokens : List Token) : Parse :=
  let input := beforeEnd tokens
  let result := Parser.topLevel limit input.1.length ⟨input.1, []⟩
  ⟨result.1, result.2.reverse.map (·.toError input.2)⟩

/-- Parses a list of tokens as one expression, within a limit of nesting. -/
def parseExpression (limit : Nat) (tokens : List Token) : Except ParseError Node :=
  let input := beforeEnd tokens
  match Parser.expression limit input.1 with
  | .ok node [] => .ok node
  | .ok _ rest => .error (Parser.Fault.toError ⟨rest, .endOfExpression⟩ input.2)
  | .error (.fault fault) _ => .error (fault.toError input.2)
  | .error .tooDeep rest => .error (Parser.Fault.toError ⟨rest, .nesting⟩ input.2)

end Lox
