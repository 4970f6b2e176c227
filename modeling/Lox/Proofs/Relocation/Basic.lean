import Lox.Diagnostic
import Lox.Node.Line
import Lox.Run.Machine

/-!
# Moving source text down

The same text further down in a source gives the same tokens on later lines. What depends on lines
is said here: tokens, the trees made of them, and the errors that tell where they arose.
-/

namespace Lox

def Token.moved (lines : Int) (t : Token) : Token :=
  { t with line := t.line + lines }

section Token

variable (lines : Int) (t : Token)

@[simp] theorem Token.moved_kind : (t.moved lines).kind = t.kind := rfl

@[simp] theorem Token.moved_lexeme : (t.moved lines).lexeme = t.lexeme := rfl

@[simp] theorem Token.moved_literal : (t.moved lines).literal = t.literal := rfl

end Token

mutual
/-- A tree some lines further down. -/
def Node.moved (lines : Int) : Node → Node
  | .absent => .absent
  | .token t => .token (t.moved lines)
  | .program statements => .program (Node.movedAll lines statements)
  | .literal value => .literal value
  | .unary operator right => .unary (operator.moved lines) (right.moved lines)
  | .binary left operator right =>
    .binary (left.moved lines) (operator.moved lines) (right.moved lines)
  | .grouping expression => .grouping (expression.moved lines)
  | .varRef name => .varRef (name.moved lines)
  | .assign name value => .assign (name.moved lines) (value.moved lines)
  | .exprStmt expression => .exprStmt (expression.moved lines)
  | .printStmt expression => .printStmt (expression.moved lines)
  | .varDecl name initializer => .varDecl (name.moved lines) (initializer.moved lines)
  | .block statements => .block (Node.movedAll lines statements)
  | .ifStmt condition thenBranch elseBranch =>
    .ifStmt (condition.moved lines) (thenBranch.moved lines) (elseBranch.moved lines)
  | .whileStmt condition body => .whileStmt (condition.moved lines) (body.moved lines)
def Node.movedAll (lines : Int) : List Node → List Node
  | [] => []
  | node :: rest => node.moved lines :: Node.movedAll lines rest
end

@[simp] theorem Node.movedAll_eq_map (lines : Int) (nodes : List Node) :
    Node.movedAll lines nodes = nodes.map (Node.moved lines) := by
  induction nodes with
  | nil => rfl
  | cons node rest ih => rw [Node.movedAll, ih, List.map_cons]

@[simp] theorem Node.typeName_moved (lines : Int) (node : Node) :
    (node.moved lines).typeName = node.typeName := by
  cases node <;> rfl

theorem Node.moved_eq_absent {lines : Int} {node : Node} :
    node.moved lines = .absent ↔ node = .absent := by
  cases node <;> simp [Node.moved]

/-! ## Errors -/

def ScanError.moved (lines : Int) (error : ScanError) : ScanError :=
  { error with line := error.line + lines }

def ParseError.moved (lines : Int) (error : ParseError) : ParseError :=
  { error with token := error.token.moved lines }

def RuntimeError.moved (lines : Int) : RuntimeError → RuntimeError
  | .undefinedVariable name => .undefinedVariable (name.moved lines)
  | .typeMismatch operator mismatch => .typeMismatch (operator.moved lines) mismatch
  | .divisionByZero operator => .divisionByZero (operator.moved lines)
  | .nestingTooDeep line => .nestingTooDeep (line + lines)

def Diagnostic.moved (lines : Int) : Diagnostic → Diagnostic
  | .scan error => .scan (error.moved lines)
  | .parse error => .parse (error.moved lines)
  | .runtime error => .runtime (error.moved lines)

end Lox
