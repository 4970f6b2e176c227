import Lox.Node.Basic

/-!
# The line of a tree

A tree is said to stand on the line of its first token, in the order of the fields. The search keeps
the nodes still to be visited in a list, so that it also works on trees too deep to walk by
recursion.
-/

namespace Lox.Node

/-- The line of the first token below some nodes, or zero if there is none. -/
def lineOf (pending : List Node) : Int :=
  match pending with
  | [] => 0
  | token t :: _ => t.line
  | node :: rest => lineOf (node.children ++ rest)
termination_by sizeAll pending
decreasing_by
  rw [sizeAll_append, sizeAll, ← sizeAll_children node]
  omega

/-- The line of the first token of a tree, or zero if it holds none. -/
def line (node : Node) : Int :=
  lineOf [node]

end Lox.Node
