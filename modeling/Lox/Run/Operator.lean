import Lox.Diagnostic
import Lox.Value

/-!
# Operators

What the operators do with values. Addition takes two numbers or two strings, equality takes
anything, and every other operator takes numbers. Dividing by a zero of either sign is an error.
-/

namespace Lox

def applyUnary (operator : Token) (operand : Value) : Except RuntimeError Value :=
  match operator.kind with
  | .minus =>
    match operand with
    | .number x => .ok (.number (-x))
    | other => .error (.typeMismatch operator (.operand other.typeName))
  | .bang => .ok (.boolean !operand.isTruthy)
  | _ => .error (.typeMismatch operator .unknownUnary)

def applyArithmetic (operator : Token) (x y : Float) : Except RuntimeError Value :=
  match operator.kind with
  | .minus => .ok (.number (x - y))
  | .star => .ok (.number (x * y))
  | .slash => if y == 0 then .error (.divisionByZero operator) else .ok (.number (x / y))
  | .greater => .ok (.boolean (y < x))
  | .greaterEqual => .ok (.boolean (y ≤ x))
  | .less => .ok (.boolean (x < y))
  | .lessEqual => .ok (.boolean (x ≤ y))
  | _ => .error (.typeMismatch operator .unknownBinary)

/-- The sum of two numbers, or two strings one after the other. -/
def applyPlus (operator : Token) : Value → Value → Except RuntimeError Value
  | .number x, .number y => .ok (.number (x + y))
  | .string s, .string t => .ok (.string (s ++ t))
  | _, _ => .error (.typeMismatch operator .notAddable)

def applyBinary (operator : Token) (left right : Value) : Except RuntimeError Value :=
  match operator.kind with
  | .plus => applyPlus operator left right
  | .equalEqual => .ok (.boolean (left.equals right))
  | .bangEqual => .ok (.boolean !left.equals right)
  | _ =>
    match left, right with
    | .number x, .number y => applyArithmetic operator x y
    | _, _ => .error (.typeMismatch operator (.operands left.typeName right.typeName))

end Lox
