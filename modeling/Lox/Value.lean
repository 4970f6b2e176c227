import Lox.Json.Basic

/-!
# Values

What an expression can be worth. Programs work with numbers, strings, booleans and `nil`. A tree
file may also put other data into a literal; such data is carried along, is truthy, prints as data
and is refused by arithmetic.
-/

namespace Lox

/-- A value of a running program. The first four kinds are those of the language; the others are
data that only a tree file can bring in. -/
inductive Value where
  | number (x : Float)
  | string (s : String)
  | boolean (b : Bool)
  | nil
  | null
  | integer (n : Int)
  | list (items : List Json)
  | object (fields : List (String × Json))
  deriving Inhabited, Repr

namespace Value

/-- Whether a value is of one of the four kinds of the language. -/
def isProper : Value → Bool
  | number _ | string _ | boolean _ | nil => true
  | _ => false

def ofJson : Json → Value
  | .null => null
  | .bool b => boolean b
  | .int n => integer n
  | .float x => number x
  | .str s => string s
  | .arr items => list items
  | .obj fields => object fields

/-- The fields of the object that stands for `nil` in a document. -/
def nilFields : List (String × Json) := [("type", .str "Nil")]

def toJson : Value → Json
  | number x => .float x
  | string s => .str s
  | boolean b => .bool b
  | nil => .obj nilFields
  | null => .null
  | integer n => .int n
  | list items => .arr items
  | object fields => .obj fields

/-- Whether the fields of an object say that it stands for `nil`. -/
def meansNil (fields : List (String × Json)) : Bool :=
  match Json.field? fields "type" with
  | some (.str name) => name = "Nil"
  | _ => false

/-- The value a document stands for. Every number is a float, so an integer is rounded to one, which
fails, with `none`, when it is too large. -/
def decode? : Json → Option Value
  | .int n => (floatOfInt? n).map number
  | .obj fields => some (if meansNil fields then nil else object fields)
  | other => some (ofJson other)

def typeName : Value → String
  | number _ => "Number"
  | string _ => "String"
  | boolean _ => "Boolean"
  | nil => "Nil"
  | other => other.toJson.typeName

/-- Numbers as programs print them: never with an exponent, and integral ones without a point. -/
def printLayout : NumberLayout where
  positional _ := true
  pointZero := false
  infinity := "inf"
  notANumber := "nan"

/-- The text that printing a value shows. -/
def display : Value → String
  | number x => printLayout.write x
  | string s => s
  | boolean b => if b then "true" else "false"
  | nil => "nil"
  | other => other.toJson.display

/-- Whether a value counts as true: all but `false` and `nil` do. -/
def isTruthy : Value → Bool
  | nil => false
  | boolean b => b
  | _ => true

/-- Equality of values. Values of different kinds are never equal; numbers compare as floats do. -/
def equals : Value → Value → Bool
  | number x, number y => x == y
  | string s, string t => s = t
  | boolean a, boolean b => a = b
  | nil, nil => true
  | null, null => true
  | integer n, integer m => n = m
  | list xs, list ys => Json.alike (.arr xs) (.arr ys)
  | object xs, object ys => Json.alike (.obj xs) (.obj ys)
  | _, _ => false

/-- Identity of values: the same kind and the same content, bit for bit in numbers. -/
def same : Value → Value → Bool
  | nil, nil => true
  | nil, _ => false
  | _, nil => false
  | a, b => a.toJson.same b.toJson

end Value

end Lox
