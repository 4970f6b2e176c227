import Lox.Json.Basic

/-!
# JSON text

Writing a document, either on one line or with every item on a line of its own. Strings are escaped
only where they have to be: the quote, the backslash and the control characters below the space.
-/

namespace Lox.Json

/-- Floats in JSON text, with the words that stand for infinity and for no number. -/
def textLayout : NumberLayout := { dataLayout with infinity := "Infinity", notANumber := "NaN" }

/-- One character inside a JSON string. -/
def escapedChar (c : Char) : List Char :=
  if c = '"' || c = '\\' then ['\\', c]
  else if c = '\n' then ['\\', 'n']
  else if c = '\r' then ['\\', 'r']
  else if c = '\t' then ['\\', 't']
  else if c = '\x08' then ['\\', 'b']
  else if c = '\x0c' then ['\\', 'f']
  else if c.toNat < 0x20 then '\\' :: 'u' :: Text.hexDigits 4 c.toNat
  else [c]

def stringText (s : String) : String :=
  String.ofList ('"' :: s.toList.flatMap escapedChar ++ ['"'])

/-- The break before an item: nothing on one line, else a new line indented to the depth. -/
def itemBreak : Option Nat → String
  | none => ""
  | some depth => String.ofList ('\n' :: List.replicate (2 * depth) ' ')

/-- What separates two items. -/
def itemComma : Option Nat → String
  | none => ", "
  | some depth => "," ++ itemBreak (some depth)

mutual
/-- The text of a document that starts at a depth of indentation, or on one line. -/
def textAt (depth : Option Nat) : Json → String
  | null => "null"
  | bool value => if value then "true" else "false"
  | int value => toString value
  | float value => textLayout.write value
  | str value => stringText value
  | arr [] => "[]"
  | arr items =>
    let inner := depth.map (· + 1)
    let inside := String.intercalate (itemComma inner) (itemTexts inner items)
    "[" ++ itemBreak inner ++ inside ++ itemBreak depth ++ "]"
  | obj [] => "\x7b\x7d"
  | obj fields =>
    let inner := depth.map (· + 1)
    let inside := String.intercalate (itemComma inner) (fieldTexts inner fields)
    "\x7b" ++ itemBreak inner ++ inside ++ itemBreak depth ++ "\x7d"
def itemTexts (depth : Option Nat) : List Json → List String
  | [] => []
  | item :: rest => item.textAt depth :: itemTexts depth rest
def fieldTexts (depth : Option Nat) : List (String × Json) → List String
  | [] => []
  | (key, value) :: rest =>
    (stringText key ++ ": " ++ value.textAt depth) :: fieldTexts depth rest
end

def line (document : Json) : String :=
  document.textAt none

/-- A document with every item on a line of its own. -/
def indented (document : Json) : String :=
  document.textAt (some 0)

end Lox.Json
