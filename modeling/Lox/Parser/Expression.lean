import Lox.Diagnostic
import Lox.Node.Basic

/-!
# Parsing expressions

From the loosest to the tightest binding:

    assignment := equality ("=" assignment)?
    equality   := comparison (("==" | "!=") comparison)*
    comparison := term ((">" | ">=" | "<" | "<=") term)*
    term       := factor (("+" | "-") factor)*
    factor     := unary (("*" | "/") unary)*
    unary      := ("!" | "-") unary | primary
    primary    := number | string | "true" | "false" | "nil" | identifier | "(" assignment ")"

The binary levels lean to the left, the others to the right. Any equality may stand to the left of
an equals sign while parsing; whether it is a name is checked once the value has been parsed.

A parser works on the tokens that are left. When it fails it leaves them where it stopped and tells
the tokens at which the fault was found. Its first argument bounds the nesting that it follows.
-/

namespace Lox.Parser

/-- A complaint about the first of some tokens, or about the end when there are none. -/
structure Fault where
  found : List Token
  complaint : Complaint
  deriving Repr

/-- Why a parser stops: at a fault, or because the nesting exceeds the limit. -/
inductive Halt where
  | fault (fault : Fault)
  | tooDeep
  deriving Repr

/-- A parser of expressions: its state is the list of tokens left. -/
abbrev ExprParser := EStateM Halt (List Token)

def beginsWith (accepts : Kind → Bool) : List Token → Bool
  | [] => false
  | t :: _ => accepts t.kind

/-- Takes a token of one kind, or complains about the token that stands there. -/
def expect (kind : Kind) (complaint : Complaint) : ExprParser Token := fun tokens =>
  match tokens with
  | [] => .error (.fault ⟨[], complaint⟩) []
  | t :: rest =>
    if t.kind = kind then .ok t rest else .error (.fault ⟨tokens, complaint⟩) tokens

/-! ## Binary levels -/

/-- Takes up to `count` operators with the operands after them, leaning to the left. -/
def chainFrom (isOperator : Kind → Bool) (operand : ExprParser Node) :
    Nat → Node → ExprParser Node
  | 0, left => pure left
  | count + 1, left => do
    match ← get with
    | [] => pure left
    | t :: rest =>
      if isOperator t.kind then
        set rest
        let right ← operand
        chainFrom isOperator operand count (.binary left (.token t) right)
      else pure left

/-- Operands with operators between them. There are at most as many operators as tokens left. -/
def chain (isOperator : Kind → Bool) (operand : ExprParser Node) : ExprParser Node := do
  let left ← operand
  let rest ← get
  if beginsWith isOperator rest then chainFrom isOperator operand rest.length left else pure left

def isEqualityOperator (kind : Kind) : Bool :=
  kind = .bangEqual || kind = .equalEqual

def isComparisonOperator (kind : Kind) : Bool :=
  kind = .greater || kind = .greaterEqual || kind = .less || kind = .lessEqual

def isTermOperator (kind : Kind) : Bool :=
  kind = .minus || kind = .plus

def isFactorOperator (kind : Kind) : Bool :=
  kind = .slash || kind = .star

/-- The operators that stand before their operand. -/
def isUnaryOperator (kind : Kind) : Bool :=
  kind = .bang || kind = .minus

/-- The four binary levels above a parser of unary expressions. -/
def equality (operand : ExprParser Node) : ExprParser Node :=
  chain isEqualityOperator (chain isComparisonOperator
    (chain isTermOperator (chain isFactorOperator operand)))

/-! ## Leaves and nesting -/

/-- The expression that a single token is. -/
def leaf? (t : Token) : Option Node :=
  match t.kind with
  | .falseWord => some (.literal (.boolean false))
  | .trueWord => some (.literal (.boolean true))
  | .nilWord => some (.literal .nil)
  | .number | .string => some (.literal (Value.ofJson t.literal))
  | .identifier => some (.varRef (.token t))
  | _ => none

/-- The node of an assignment, or a complaint about the equals sign at which `found` begins. -/
def assignTo (target value : Node) (found : List Token) : ExprParser Node :=
  match target with
  | .varRef name => pure (.assign name value)
  | _ => throw (.fault ⟨found, .assignmentTarget⟩)

mutual
/-- An expression, within a limit of nesting. -/
def assignment : Nat → ExprParser Node
  | 0 => throw .tooDeep
  | limit + 1 => do
    let target ← equality (unary limit)
    let found ← get
    if beginsWith (· = .equal) found then
      set found.tail
      let value ← assignment limit
      assignTo target value found
    else pure target
/-- A unary expression or a primary one, within a limit of nesting. -/
def unary : Nat → ExprParser Node
  | 0 => throw .tooDeep
  | limit + 1 => do
    match ← get with
    | [] => throw (.fault ⟨[], .expression⟩)
    | t :: rest =>
      if isUnaryOperator t.kind then
        set rest
        let right ← unary limit
        return .unary (.token t) right
      else if t.kind = .leftParen then
        set rest
        let inner ← assignment limit
        let _ ← expect .rightParen .parenAfterExpression
        return .grouping inner
      else
        match leaf? t with
        | some leaf =>
          set rest
          return leaf
        | none => throw (.fault ⟨t :: rest, .expression⟩)
end

def expression (limit : Nat) : ExprParser Node :=
  assignment limit

end Lox.Parser
