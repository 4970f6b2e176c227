import Lox.Decimal.Numeral
import Lox.Token.Basic

/-!
# Tokens as documents

How a token is kept in a tree file, and how it is read from a file that may have been written by
hand. The number of a token may be given as a numeral in text, and so may its line. Faults are found
in a fixed order: the kind, the literal, the lexeme, the line.
-/

namespace Lox

/-- Why a document is no tree. -/
inductive DecodeError where
  | notANode
  | unknownType (type : Json)
  | missingField (key : String)
  | notAList (found : Json)
  | noFields (found : Json)
  | unknownKind (kind : Json)
  | unhashableKind (kind : Json)
  | numeral (text : String)
  | notNumeric (found : Json)
  | numberTooLarge
  | lineNumeral (text : String)
  | lineTooLong (digits : Nat)
  | lineNotNumeric (found : Json)
  | lineNotANumber
  | lineInfinite
  deriving Repr

namespace DecodeError

/-- How much of a numeral in quotes is shown. -/
def shownLength : Nat := 200

def message : DecodeError → String
  | notANode => "Invalid AST object"
  | unknownType type => "Unknown AST node type: " ++ type.display
  | missingField key => Text.quoted key
  | notAList found => "'" ++ found.typeName ++ "' object is not iterable"
  | noFields found => "'" ++ found.typeName ++ "' object has no attribute 'get'"
  | unknownKind kind => kind.inspect
  | unhashableKind kind => "unhashable type: '" ++ kind.typeName ++ "'"
  | numeral text => "could not convert string to float: " ++ Text.quoted text
  | notNumeric found =>
    "float() argument must be a string or a real number, not '" ++ found.typeName ++ "'"
  | numberTooLarge => "int too large to convert to float"
  | lineNumeral text =>
    "invalid literal for int() with base 10: " ++
      String.ofList ((Text.quoted text).toList.take shownLength)
  | lineTooLong digits => Numeral.tooManyDigits digits
  | lineNotNumeric found =>
    "int() argument must be a string, a bytes-like object or a real number, not '" ++
      found.typeName ++ "'"
  | lineNotANumber => "cannot convert float NaN to integer"
  | lineInfinite => "cannot convert float infinity to integer"

end DecodeError

/-- The value of a field that has to be there. -/
def Json.required (fields : List (String × Json)) (key : String) : Except DecodeError Json :=
  match Json.field? fields key with
  | some value => .ok value
  | none => .error (.missingField key)

def Kind.ofJson : Json → Except DecodeError Kind
  | .str name =>
    match Kind.ofName? name with
    | some kind => .ok kind
    | none => .error (.unknownKind (.str name))
  | .arr items => .error (.unhashableKind (.arr items))
  | .obj fields => .error (.unhashableKind (.obj fields))
  | other => .error (.unknownKind other)

namespace Token

def numberOf : Json → Except DecodeError Float
  | .float x => .ok x
  | .bool b => .ok (if b then 1 else 0)
  | .int n =>
    match floatOfInt? n with
    | some x => .ok x
    | none => .error .numberTooLarge
  | .str s =>
    match Numeral.float? s with
    | some x => .ok x
    | none => .error (.numeral s)
  | other => .error (.notNumeric other)

/-- The literal of a token: that of a number token is a number, and others are kept as they are. -/
def literalOf (kind : Kind) (literal : Json) : Except DecodeError Json :=
  match kind, literal with
  | .number, .null => .ok .null
  | .number, value => (numberOf value).map .float
  | _, value => .ok value

/-- The line that a document stands for; the fraction of a number is cut off. -/
def lineOf : Json → Except DecodeError Int
  | .int n => .ok n
  | .bool b => .ok (if b then 1 else 0)
  | .float x =>
    if x.isNaN then .error .lineNotANumber
    else if x.isInf then .error .lineInfinite
    else .ok (truncated x)
  | .str s =>
    match Numeral.excess? s, Numeral.int? s with
    | some digits, _ => .error (.lineTooLong digits)
    | none, some n => .ok n
    | none, none => .error (.lineNumeral s)
  | other => .error (.lineNotNumeric other)

/-- The token that the fields of an object describe. A lexeme is kept as it is. -/
def ofFields (fields : List (String × Json)) : Except DecodeError Token := do
  let kind ← Kind.ofJson (← Json.required fields "kind")
  let literal ← literalOf kind ((Json.field? fields "literal").getD .null)
  let lexeme ← Json.required fields "lexeme"
  let line ← lineOf (← Json.required fields "line")
  return ⟨kind, lexeme, literal, line⟩

def ofJson : Json → Except DecodeError Token
  | .obj fields => ofFields fields
  | other => .error (.noFields other)

def toJson (t : Token) : Json :=
  .obj [("type", .str "Token"), ("kind", .str t.kind.name), ("lexeme", t.lexeme),
    ("literal", t.literal), ("line", .int t.line)]

end Token

end Lox
