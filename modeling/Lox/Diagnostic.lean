import Lox.Token.Scan

/-!
# Diagnostics

The errors that a program can cause: while its text is scanned, while it is parsed, and while it
runs. Each has a line and a message, and is written on one line under a heading.
-/

namespace Lox

/-- What the parser misses or rejects at a token. -/
inductive Complaint where
  | expression
  | variableName
  | semicolonAfterDeclaration
  | semicolonAfterValue
  | semicolonAfterExpression
  | braceAfterBlock
  | parenAfterIf
  | parenAfterIfCondition
  | parenAfterWhile
  | parenAfterCondition
  | parenAfterExpression
  | endOfExpression
  | assignmentTarget
  | nesting
  deriving DecidableEq, Repr

def Complaint.message : Complaint → String
  | expression => "Expect expression."
  | variableName => "Expect variable name."
  | semicolonAfterDeclaration => "Expect ';' after variable declaration."
  | semicolonAfterValue => "Expect ';' after value."
  | semicolonAfterExpression => "Expect ';' after expression."
  | braceAfterBlock => "Expect '\x7d' after block."
  | parenAfterIf => "Expect '(' after 'if'."
  | parenAfterIfCondition => "Expect ')' after if condition."
  | parenAfterWhile => "Expect '(' after 'while'."
  | parenAfterCondition => "Expect ')' after condition."
  | parenAfterExpression => "Expect ')' after expression."
  | endOfExpression => "Expect end of expression."
  | assignmentTarget => "Invalid assignment target."
  | nesting => "Too much nesting."

structure ParseError where
  token : Token
  complaint : Complaint
  deriving Repr

/-- Why an operator cannot be applied. -/
inductive Mismatch where
  | notAddable
  | operand (kind : String)
  | operands (left right : String)
  | unknownUnary
  | unknownBinary
  deriving DecidableEq, Repr

def Mismatch.message : Mismatch → String
  | notAddable => "Operands must be two numbers or two strings."
  | operand kind => "Operand must be a number, got " ++ kind ++ "."
  | operands left right => "Operands must be numbers, got " ++ left ++ " and " ++ right ++ "."
  | unknownUnary => "Unknown unary operator."
  | unknownBinary => "Unknown binary operator."

/-- What goes wrong while a program runs. -/
inductive RuntimeError where
  | undefinedVariable (name : Token)
  | typeMismatch (operator : Token) (mismatch : Mismatch)
  | divisionByZero (operator : Token)
  | nestingTooDeep (line : Int)
  deriving Repr

namespace RuntimeError

def name : RuntimeError → String
  | undefinedVariable _ => "UndefinedVariable"
  | typeMismatch .. => "TypeMismatch"
  | divisionByZero _ => "DivisionByZero"
  | nestingTooDeep _ => "NestingTooDeep"

def line : RuntimeError → Int
  | undefinedVariable token | typeMismatch token _ | divisionByZero token => token.line
  | nestingTooDeep line => line

def message : RuntimeError → String
  | undefinedVariable name => "Undefined variable '" ++ name.text ++ "'."
  | typeMismatch operator mismatch =>
    mismatch.message ++ " (operator '" ++ operator.text ++ "')"
  | divisionByZero _ => "Division by zero."
  | nestingTooDeep _ => Complaint.nesting.message

end RuntimeError

/-- An error of any of the three stages. -/
inductive Diagnostic where
  | scan (error : ScanError)
  | parse (error : ParseError)
  | runtime (error : RuntimeError)
  deriving Repr

namespace Diagnostic

def isRuntime : Diagnostic → Bool
  | runtime _ => true
  | _ => false

def line : Diagnostic → Int
  | scan error => error.line
  | parse error => error.token.line
  | runtime error => error.line

def message : Diagnostic → String
  | scan error => error.complaint.message
  | parse error => error.complaint.message
  | runtime error => error.message

def lineTag (error : Diagnostic) : String :=
  "[line " ++ toString error.line ++ "] "

/-- An error with its line, and with its token or its name. -/
def describe (error : Diagnostic) : String :=
  match error with
  | scan _ => error.lineTag ++ error.message
  | parse fault =>
    let place := if fault.token.kind = .eof then "at end" else "at '" ++ fault.token.text ++ "'"
    error.lineTag ++ "Error " ++ place ++ ": " ++ error.message
  | runtime fault => error.lineTag ++ fault.name ++ ": " ++ error.message

def heading : Diagnostic → String
  | scan _ => "Scan error:"
  | parse _ => "Parse error:"
  | runtime _ => "Runtime error:"

/-- The number of the terminal colour of a heading: red, or magenta for errors of a run. -/
def colour (error : Diagnostic) : String :=
  if error.isRuntime then "35" else "31"

/-- The heading of an error, bold and coloured if so wanted. -/
def styledHeading (coloured : Bool) (error : Diagnostic) : String :=
  if coloured then "\x1b[1m\x1b[" ++ error.colour ++ "m" ++ error.heading ++ "\x1b[0m"
  else error.heading

/-- The line that reports an error, without its end. -/
def report (coloured : Bool) (error : Diagnostic) : String :=
  error.styledHeading coloured ++ " " ++ error.describe

end Diagnostic

end Lox
