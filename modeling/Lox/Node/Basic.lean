import Lox.Token.Basic
import Lox.Value

/-!
# Trees

The tree of a program. A tree file written by hand may put any node in any place, or leave a place
empty, so there is one type of nodes and `absent` stands for an empty place. The trees that the
parser builds are the well-formed ones.
-/

namespace Lox

inductive Node where
  | absent
  | token (t : Token)
  | program (statements : List Node)
  | literal (value : Value)
  | unary (operator right : Node)
  | binary (left operator right : Node)
  | grouping (expression : Node)
  | varRef (name : Node)
  | assign (name value : Node)
  | exprStmt (expression : Node)
  | printStmt (expression : Node)
  | varDecl (name initializer : Node)
  | block (statements : List Node)
  | ifStmt (condition thenBranch elseBranch : Node)
  | whileStmt (condition body : Node)
  deriving Inhabited, Repr

namespace Node

def typeName : Node → String
  | absent => "NoneType"
  | token _ => "Token"
  | program _ => "Program"
  | literal _ => "Literal"
  | unary .. => "Unary"
  | binary .. => "Binary"
  | grouping _ => "Grouping"
  | varRef _ => "Variable"
  | assign .. => "Assign"
  | exprStmt _ => "ExprStmt"
  | printStmt _ => "PrintStmt"
  | varDecl .. => "VarDecl"
  | block _ => "Block"
  | ifStmt .. => "IfStmt"
  | whileStmt .. => "WhileStmt"

/-- The nodes right below a node, in the order of its fields. -/
def children : Node → List Node
  | absent | token _ | literal _ => []
  | program statements | block statements => statements
  | unary operator right => [operator, right]
  | binary left operator right => [left, operator, right]
  | grouping expression | exprStmt expression | printStmt expression => [expression]
  | varRef name => [name]
  | assign name value => [name, value]
  | varDecl name initializer => [name, initializer]
  | ifStmt condition thenBranch elseBranch => [condition, thenBranch, elseBranch]
  | whileStmt condition body => [condition, body]

mutual
/-- Equality of trees, bit for bit in their numbers. -/
def same : Node → Node → Bool
  | absent, absent => true
  | token t, token u => t.same u
  | program a, program b => sameAll a b
  | literal v, literal w => v.same w
  | unary o r, unary o' r' => o.same o' && r.same r'
  | binary l o r, binary l' o' r' => l.same l' && o.same o' && r.same r'
  | grouping e, grouping e' => e.same e'
  | varRef n, varRef n' => n.same n'
  | assign n v, assign n' v' => n.same n' && v.same v'
  | exprStmt e, exprStmt e' => e.same e'
  | printStmt e, printStmt e' => e.same e'
  | varDecl n i, varDecl n' i' => n.same n' && i.same i'
  | block a, block b => sameAll a b
  | ifStmt c t e, ifStmt c' t' e' => c.same c' && t.same t' && e.same e'
  | whileStmt c b, whileStmt c' b' => c.same c' && b.same b'
  | _, _ => false
def sameAll : List Node → List Node → Bool
  | [], [] => true
  | a :: as, b :: bs => a.same b && sameAll as bs
  | _, _ => false
end

mutual
def depth : Node → Nat
  | absent | token _ | literal _ => 1
  | program statements | block statements => depthAll statements + 1
  | unary operator right => max operator.depth right.depth + 1
  | binary left operator right => max (max left.depth operator.depth) right.depth + 1
  | grouping expression | exprStmt expression | printStmt expression => expression.depth + 1
  | varRef name => name.depth + 1
  | assign name value => max name.depth value.depth + 1
  | varDecl name initializer => max name.depth initializer.depth + 1
  | ifStmt condition thenBranch elseBranch =>
    max (max condition.depth thenBranch.depth) elseBranch.depth + 1
  | whileStmt condition body => max condition.depth body.depth + 1
def depthAll : List Node → Nat
  | [] => 0
  | node :: rest => max node.depth (depthAll rest)
end

mutual
def size : Node → Nat
  | absent | token _ | literal _ => 1
  | program statements | block statements => sizeAll statements + 1
  | unary operator right => operator.size + right.size + 1
  | binary left operator right => left.size + operator.size + right.size + 1
  | grouping expression | exprStmt expression | printStmt expression => expression.size + 1
  | varRef name => name.size + 1
  | assign name value => name.size + value.size + 1
  | varDecl name initializer => name.size + initializer.size + 1
  | ifStmt condition thenBranch elseBranch =>
    condition.size + thenBranch.size + elseBranch.size + 1
  | whileStmt condition body => condition.size + body.size + 1
def sizeAll : List Node → Nat
  | [] => 0
  | node :: rest => node.size + sizeAll rest
end

theorem sizeAll_append (as bs : List Node) : sizeAll (as ++ bs) = sizeAll as + sizeAll bs := by
  induction as with
  | nil => simp [sizeAll]
  | cons a as ih => simp [sizeAll, ih, Nat.add_assoc]

/-- A node is one larger than the nodes below it. -/
theorem sizeAll_children (node : Node) : sizeAll node.children + 1 = node.size := by
  cases node <;> simp [children, sizeAll, size, Nat.add_assoc]

end Node

end Lox
