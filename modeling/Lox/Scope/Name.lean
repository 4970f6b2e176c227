import Lox.Json.Basic

/-!
# Names

What a scope binds values to. The names of a source text are texts. A tree file may name a variable
by any data; numbers and booleans that are alike are then one name written in several ways, missing
data is a name of its own, and lists and objects are no names at all.

Two names are the same if their normal forms are equal. A text is its own normal form.
-/

namespace Lox

/-- A name as it is written. -/
inductive Name where
  | text (s : String)
  | boolean (b : Bool)
  | integer (n : Int)
  | float (x : Float)
  | missing
  deriving DecidableEq, Repr

namespace Name

instance : Coe String Name := ⟨text⟩

/-- The normal form of a float as a name: the integer that it is, if it is one. All floats that are
no number are one name. -/
def ofFloat (x : Float) : Name :=
  if x.isNaN then float (0.0 / 0.0)
  else if x.isFinite && intEqFloat (truncated x) x then integer (truncated x)
  else float x

/-- The normal form of a name, in which numbers and booleans that are alike are equal. -/
def normal : Name → Name
  | boolean b => integer (if b then 1 else 0)
  | float x => ofFloat x
  | other => other

/-- A text is its own normal form. -/
@[simp] theorem normal_text (s : String) : (text s).normal = text s := rfl

def ofJson? : Json → Option Name
  | .null => some missing
  | .bool b => some (boolean b)
  | .int n => some (integer n)
  | .float x => some (float x)
  | .str s => some (text s)
  | .arr _ | .obj _ => none

def toJson : Name → Json
  | text s => .str s
  | boolean b => .bool b
  | integer n => .int n
  | float x => .float x
  | missing => .null

/-- A name read from its document is that name. -/
@[simp] theorem ofJson?_toJson (name : Name) : ofJson? name.toJson = some name := by
  cases name <;> rfl

end Name

end Lox
