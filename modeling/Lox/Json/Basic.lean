import Lox.Decimal.Layout
import Lox.Text.Quoted

/-!
# JSON documents

The data a tree file holds. Integers and floats are kept apart, and the fields of an object keep
the order in which their keys were first written. Documents compare in two ways: `same` holds of
equal documents, bit for bit in their floats, while `alike` compares numbers by value, counts the
booleans as the integers zero and one, and takes what is no number to be alike.
-/

namespace Lox

inductive Json where
  | null
  | bool (value : Bool)
  | int (value : Int)
  | float (value : Float)
  | str (value : String)
  | arr (items : List Json)
  | obj (fields : List (String × Json))
  deriving Inhabited, Repr

namespace Json

def field? (fields : List (String × Json)) (key : String) : Option Json :=
  (fields.find? fun entry => entry.1 = key).map (·.2)

/-- Sets a field: a key already present keeps its place and takes the new value. -/
def setField (key : String) (value : Json) : List (String × Json) → List (String × Json)
  | [] => [(key, value)]
  | entry :: rest =>
    if entry.1 = key then (key, value) :: rest else entry :: setField key value rest

def typeName : Json → String
  | null => "NoneType"
  | bool _ => "bool"
  | int _ => "int"
  | float _ => "float"
  | str _ => "str"
  | arr _ => "list"
  | obj _ => "dict"

/-! ## Comparing documents -/

mutual
/-- Equality of documents, bit for bit in their floats. -/
def same : Json → Json → Bool
  | null, null => true
  | bool a, bool b => a = b
  | int a, int b => a = b
  | float a, float b => a = b
  | str a, str b => a = b
  | arr a, arr b => sameItems a b
  | obj a, obj b => sameFields a b
  | _, _ => false
def sameItems : List Json → List Json → Bool
  | [], [] => true
  | a :: as, b :: bs => a.same b && sameItems as bs
  | _, _ => false
def sameFields : List (String × Json) → List (String × Json) → Bool
  | [], [] => true
  | (key, a) :: as, (key', b) :: bs => key = key' && a.same b && sameFields as bs
  | _, _ => false
end

/-- The integer that a boolean or an integer stands for in a comparison. -/
def integer? : Json → Option Int
  | bool value => some (if value then 1 else 0)
  | int value => some value
  | _ => none

/-- Equality of two documents that are neither arrays nor objects, numbers by value. -/
def alikeScalars (a b : Json) : Bool :=
  match a, b with
  | null, null => true
  | str a, str b => a = b
  | float a, float b => a == b || (a.isNaN && b.isNaN)
  | float a, b => match b.integer? with | some n => intEqFloat n a | none => false
  | a, float b => match a.integer? with | some n => intEqFloat n b | none => false
  | a, b => match a.integer?, b.integer? with | some n, some m => n = m | _, _ => false

mutual
/-- Equality by value: `1`, `1.0` and `true` are alike, and the order of fields does not matter. -/
def alike : Json → Json → Bool
  | arr a, arr b => alikeItems a b
  | obj a, obj b => a.length = b.length && alikeFields a b
  | a, b => alikeScalars a b
def alikeItems : List Json → List Json → Bool
  | [], [] => true
  | a :: as, b :: bs => a.alike b && alikeItems as bs
  | _, _ => false
/-- Whether each of some fields has an alike field among others. -/
def alikeFields : List (String × Json) → List (String × Json) → Bool
  | [], _ => true
  | (key, a) :: as, bs =>
    (match field? bs key with | some b => a.alike b | none => false) && alikeFields as bs
end

/-! ## Showing documents -/

/-- Floats inside data: with a point from `0.0001` to below `10 ^ 16`, otherwise with an
exponent. -/
def dataLayout : NumberLayout where
  positional exponent := -4 ≤ exponent && exponent < 16
  pointZero := true
  infinity := "inf"
  notANumber := "nan"

mutual
def inspect : Json → String
  | null => "None"
  | bool value => if value then "True" else "False"
  | int value => toString value
  | float value => dataLayout.write value
  | str value => Text.quoted value
  | arr items => "[" ++ String.intercalate ", " (inspectItems items) ++ "]"
  | obj fields => "\x7b" ++ String.intercalate ", " (inspectFields fields) ++ "\x7d"
def inspectItems : List Json → List String
  | [] => []
  | item :: rest => item.inspect :: inspectItems rest
def inspectFields : List (String × Json) → List String
  | [] => []
  | (key, value) :: rest => (Text.quoted key ++ ": " ++ value.inspect) :: inspectFields rest
end

/-- A document as text: a string stands for itself and all else is shown as by `inspect`. -/
def display : Json → String
  | str value => value
  | other => other.inspect

end Json

end Lox
