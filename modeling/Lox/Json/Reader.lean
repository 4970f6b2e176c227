import Lox.Decimal.Numeral
import Lox.Json.Basic

/-!
# Reading JSON text

Each reading function takes the characters that are left and returns what stands at their front
with the characters after it. A fault names what was expected and holds the characters at which it
stands, so that its line, column and offset can be told from the whole text. Beside standard JSON
the words `NaN`, `Infinity` and `-Infinity` are read. Of two fields with one key the later value
counts. Arrays and objects may stand inside each other only up to a limit.

An escape may spell half of a character without the other half. What it stands for is no text, so
that no document here can hold it: the reading ends there with a complaint of its own.
-/

namespace Lox.Json

inductive Complaint where
  | value
  | propertyName
  | colon
  | comma
  | extraData
  | openString
  | controlCharacter
  | escape
  | unicodeEscape
  | halfCharacter
  | byteOrderMark
  | tooManyDigits (count : Nat)
  | deepArray
  | deepObject
  deriving DecidableEq, Repr

def Complaint.message : Complaint → String
  | value => "Expecting value"
  | propertyName => "Expecting property name enclosed in double quotes"
  | colon => "Expecting ':' delimiter"
  | comma => "Expecting ',' delimiter"
  | extraData => "Extra data"
  | openString => "Unterminated string starting at"
  | controlCharacter => "Invalid control character at"
  | escape => "Invalid \\escape"
  | unicodeEscape => "Invalid \\uXXXX escape"
  | halfCharacter => "Half of a character at"
  | byteOrderMark => "Unexpected UTF-8 BOM (decode using utf-8-sig)"
  | tooManyDigits count => Numeral.tooManyDigits count
  | deepArray =>
    "maximum recursion depth exceeded while decoding a JSON array from a unicode string"
  | deepObject =>
    "maximum recursion depth exceeded while decoding a JSON object from a unicode string"

/-- Whether a complaint is about one character of the text, so that its place can be told. Limits
on the length of a number and on nesting have no such place. -/
def Complaint.hasPlace : Complaint → Bool
  | tooManyDigits _ | deepArray | deepObject => false
  | _ => true

/-- A complaint about the characters at which it stands. -/
structure Fault where
  complaint : Complaint
  found : List Char

/-- The line and column, from one, and the offset, from zero, of a fault in the whole text. -/
def Fault.place (fault : Fault) (text : List Char) : Nat × Nat × Nat :=
  let offset := text.length - fault.found.length
  let before := text.take offset
  let line := before.count '\n' + 1
  let column := (before.reverse.takeWhile (· != '\n')).length + 1
  (line, column, offset)

/-- The message of a fault in a text, with its place where it has one. -/
def Fault.message (fault : Fault) (text : List Char) : String :=
  if fault.complaint.hasPlace then
    let place := fault.place text
    fault.complaint.message ++ ": line " ++ toString place.1 ++ " column " ++
      toString place.2.1 ++ " (char " ++ toString place.2.2 ++ ")"
  else fault.complaint.message

def isSpace (c : Char) : Bool :=
  c = ' ' || c = '\t' || c = '\n' || c = '\r'

def skipSpaces (cs : List Char) : List Char :=
  cs.dropWhile isSpace

/-! ## Strings -/

def hexValue? (c : Char) : Option Nat :=
  if c.isDigit then some (c.toNat - '0'.toNat)
  else if 'a' ≤ c && c ≤ 'f' then some (c.toNat - 'a'.toNat + 10)
  else if 'A' ≤ c && c ≤ 'F' then some (c.toNat - 'A'.toNat + 10)
  else none

def hexFour? (a b c d : Char) : Option Nat := do
  return 4096 * (← hexValue? a) + 256 * (← hexValue? b) + 16 * (← hexValue? c) + (← hexValue? d)

/-- The code unit that four hexadecimal digits spell; at least one character has to follow them. -/
def codeUnit? : List Char → Option Nat
  | a :: b :: c :: d :: _ :: _ => hexFour? a b c d
  | _ => none

/-- The character a letter after a backslash stands for. -/
def simpleEscape? (c : Char) : Option Char :=
  match c with
  | '"' => some '"'
  | '\\' => some '\\'
  | '/' => some '/'
  | 'b' => some '\x08'
  | 'f' => some '\x0c'
  | 'n' => some '\n'
  | 'r' => some '\r'
  | 't' => some '\t'
  | _ => none

def isHighHalf (unit : Nat) : Bool :=
  0xD800 ≤ unit && unit < 0xDC00

def isLowHalf (unit : Nat) : Bool :=
  0xDC00 ≤ unit && unit < 0xE000

def pairedUnits (high low : Nat) : Char :=
  Char.ofNat (0x10000 + 1024 * (high - 0xD800) + (low - 0xDC00))

/-- The code unit of an escape that follows at once, when one does; the inner `none` stands for
wrong digits. At least one character has to follow it. -/
def followingUnit? : List Char → Option (Option Nat)
  | '\\' :: 'u' :: a :: b :: c :: d :: _ :: _ => some (hexFour? a b c d)
  | _ => none

/-- The rest of a string after its quote; `start` is the string from its quote. The characters read
so far are `read`, the last one first, and `skip` characters belong to an escape already read. -/
def stringRest (start read : List Char) (skip : Nat) :
    List Char → Except Fault (String × List Char)
  | [] => .error ⟨.openString, start⟩
  | c :: rest =>
    match skip with
    | skip + 1 => stringRest start read skip rest
    | 0 =>
      if c = '"' then .ok (String.ofList read.reverse, rest)
      else if c.toNat < 0x20 then .error ⟨.controlCharacter, c :: rest⟩
      else if c != '\\' then stringRest start (c :: read) 0 rest
      else
        match rest with
        | [] => .error ⟨.openString, start⟩
        | 'u' :: after =>
          match codeUnit? after with
          | none => .error ⟨.unicodeEscape, rest⟩
          | some unit =>
            if isHighHalf unit then
              match followingUnit? (after.drop 4) with
              | some none => .error ⟨.unicodeEscape, after.drop 5⟩
              | some (some second) =>
                if isLowHalf second then stringRest start (pairedUnits unit second :: read) 11 rest
                else .error ⟨.halfCharacter, c :: rest⟩
              | none => .error ⟨.halfCharacter, c :: rest⟩
            else if isLowHalf unit then .error ⟨.halfCharacter, c :: rest⟩
            else stringRest start (Char.ofNat unit :: read) 5 rest
        | letter :: _ =>
          match simpleEscape? letter with
          | some meant => stringRest start (meant :: read) 1 rest
          | none => .error ⟨.escape, c :: rest⟩

/-! ## Numbers and words -/

/-- The exponent at the front: its value and the characters after it. -/
def exponentPart? (cs : List Char) : Option (Int × List Char) :=
  match cs with
  | mark :: rest =>
    if mark = 'e' || mark = 'E' then
      let signed : Bool × List Char := match rest with
        | '-' :: after => (true, after)
        | '+' :: after => (false, after)
        | _ => (false, rest)
      let digits := signed.2.takeWhile Char.isDigit
      if digits.isEmpty then none
      else
        let size := Decimal.digitsValue digits
        some (if signed.1 then -(size : Int) else size, signed.2.dropWhile Char.isDigit)
    else none
  | [] => none

/-- The fraction at the front: its digits and the characters after it. A point with no digit after
it is no fraction. -/
def fractionPart (cs : List Char) : List Char × List Char :=
  match cs with
  | '.' :: rest =>
    let digits := rest.takeWhile Char.isDigit
    if digits.isEmpty then ([], cs) else (digits, rest.dropWhile Char.isDigit)
  | _ => ([], cs)

/-- The digits before the point at the front. A zero that comes first is the only one of them. -/
def wholePart (cs : List Char) : List Char :=
  match cs with
  | '0' :: _ => ['0']
  | _ => cs.takeWhile Char.isDigit

/-- The number at the front, after its sign. An integer may not have too many digits. -/
def unsignedNumber (negative : Bool) (cs : List Char) : Except Complaint (Json × List Char) :=
  let whole := wholePart cs
  if whole.isEmpty then .error .value
  else
    let fraction := fractionPart (cs.drop whole.length)
    match fraction.1, exponentPart? fraction.2 with
    | [], none =>
      let size := Decimal.digitsValue whole
      if Numeral.digitLimit < whole.length then .error (.tooManyDigits whole.length)
      else .ok (.int (if negative then -(size : Int) else size), fraction.2)
    | digits, exponent =>
      let plain := Decimal.ofParts whole digits
      let size := Decimal.toFloat ⟨plain.digits, plain.exponent + (exponent.map (·.1)).getD 0⟩
      .ok (.float (if negative then -size else size), (exponent.map (·.2)).getD fraction.2)

def words : List (String × Json) :=
  [("null", .null), ("true", .bool true), ("false", .bool false), ("NaN", .float (0.0 / 0.0)),
    ("Infinity", .float (1.0 / 0.0)), ("-Infinity", .float (-1.0 / 0.0))]

def word? (cs : List Char) : Option (Json × List Char) :=
  (words.find? fun word => word.1.toList.isPrefixOf cs).map fun word =>
    (word.2, cs.drop word.1.length)

def scalar (cs : List Char) : Except Complaint (Json × List Char) :=
  match word? cs with
  | some result => .ok result
  | none =>
    match cs with
    | '-' :: rest => unsignedNumber true rest
    | _ => unsignedNumber false cs

/-! ## Documents -/

/-- How many arrays and objects may stand inside each other. -/
def depthLimit : Nat := 1000

mutual
/-- The document at the front, in which at most `room` arrays and objects may stand inside each
other. Every call is made with less fuel, and twice the number of characters is enough of it. -/
def readValue (fuel room : Nat) (cs : List Char) : Except Fault (Json × List Char) :=
  match fuel with
  | 0 => .error ⟨.value, cs⟩
  | fuel + 1 =>
    match cs, room with
    | '"' :: rest, _ => (stringRest cs [] 0 rest).map fun result => (.str result.1, result.2)
    | '[' :: _, 0 => .error ⟨.deepArray, cs⟩
    | '[' :: rest, room + 1 =>
      match skipSpaces rest with
      | ']' :: after => .ok (.arr [], after)
      | inside => (readItems fuel room inside).map fun result => (.arr result.1, result.2)
    | '\x7b' :: _, 0 => .error ⟨.deepObject, cs⟩
    | '\x7b' :: rest, room + 1 =>
      match skipSpaces rest with
      | '\x7d' :: after => .ok (.obj [], after)
      | inside => (readFields fuel room [] inside).map fun result => (.obj result.1, result.2)
    | _, _ =>
      match scalar cs with
      | .ok result => .ok result
      | .error complaint => .error ⟨complaint, cs⟩
/-- The items of an array, up to and with its closing bracket. -/
def readItems (fuel room : Nat) (cs : List Char) : Except Fault (List Json × List Char) :=
  match fuel with
  | 0 => .error ⟨.value, cs⟩
  | fuel + 1 => do
    let first ← readValue fuel room cs
    match skipSpaces first.2 with
    | ']' :: after => return ([first.1], after)
    | ',' :: after =>
      let rest ← readItems fuel room (skipSpaces after)
      return (first.1 :: rest.1, rest.2)
    | other => .error ⟨.comma, other⟩
/-- The fields of an object after those already read, up to and with its closing brace. -/
def readFields (fuel room : Nat) (read : List (String × Json)) (cs : List Char) :
    Except Fault (List (String × Json) × List Char) :=
  match fuel with
  | 0 => .error ⟨.value, cs⟩
  | fuel + 1 =>
    match cs with
    | '"' :: rest => do
      let key ← stringRest cs [] 0 rest
      match skipSpaces key.2 with
      | ':' :: after =>
        let value ← readValue fuel room (skipSpaces after)
        let fields := setField key.1 value.1 read
        match skipSpaces value.2 with
        | '\x7d' :: after => return (fields, after)
        | ',' :: after => readFields fuel room fields (skipSpaces after)
        | other => .error ⟨.comma, other⟩
      | other => .error ⟨.colon, other⟩
    | _ => .error ⟨.propertyName, cs⟩
end

def readChars (cs : List Char) : Except Fault Json := do
  if cs.head? = some '\uFEFF' then .error ⟨.byteOrderMark, cs⟩
  else
    let result ← readValue (2 * cs.length + 1) depthLimit (skipSpaces cs)
    match skipSpaces result.2 with
    | [] => return result.1
    | other => .error ⟨.extraData, other⟩

def read (text : String) : Except Fault Json :=
  readChars text.toList

end Lox.Json
