import Lox.Decimal.Basic
import Lox.Text.Blank

/-!
# Numerals in text

Reading a text as one number, for data that was written by hand. White space around the numeral is
ignored, one underscore may stand between two digits, and the decimal digits of every script count.
Integers have a sign and digits; floats may also have a point and an exponent, and the words for
infinity and for a value that is no number are read in any case.
-/

namespace Lox.Numeral

/-- The code points of the zeros of the decimal digit runs; the nine other digits follow each. -/
def zeros : List Nat := [
  0x30, 0x660, 0x6F0, 0x7C0, 0x966, 0x9E6, 0xA66, 0xAE6, 0xB66, 0xBE6, 0xC66, 0xCE6, 0xD66, 0xDE6,
  0xE50, 0xED0, 0xF20, 0x1040, 0x1090, 0x17E0, 0x1810, 0x1946, 0x19D0, 0x1A80, 0x1A90, 0x1B50,
  0x1BB0, 0x1C40, 0x1C50, 0xA620, 0xA8D0, 0xA900, 0xA9D0, 0xA9F0, 0xAA50, 0xABF0, 0xFF10, 0x104A0,
  0x10D30, 0x11066, 0x110F0, 0x11136, 0x111D0, 0x112F0, 0x11450, 0x114D0, 0x11650, 0x116C0, 0x11730,
  0x118E0, 0x11950, 0x11C50, 0x11D50, 0x11DA0, 0x16A60, 0x16AC0, 0x16B50, 0x1D7CE, 0x1D7D8, 0x1D7E2,
  0x1D7EC, 0x1D7F6, 0x1E140, 0x1E2F0, 0x1E950, 0x1FBF0]

/-- The ASCII digit of the same value for a digit of any script, and any other character itself. -/
def plainDigit (c : Char) : Char :=
  match zeros.find? fun start => start ≤ c.toNat && c.toNat < start + 10 with
  | some start => Char.ofNat ('0'.toNat + (c.toNat - start))
  | none => c

/-- Removes the underscores that stand between two digits; `none` when one stands elsewhere. -/
def withoutUnderscores (previous : Option Char) : List Char → Option (List Char)
  | [] => some []
  | '_' :: rest =>
    match previous, rest with
    | some before, after :: _ =>
      if before.isDigit && after.isDigit then withoutUnderscores none rest else none
    | _, _ => none
  | c :: rest => (withoutUnderscores (some c) rest).map (c :: ·)

/-- The characters of a numeral with white space, scripts and underscores settled. -/
def normalized (s : String) : Option (List Char) :=
  withoutUnderscores none ((Text.trim Text.isWhite s.toList).map plainDigit)

/-- Splits off a sign; `true` means minus. -/
def splitSign : List Char → Bool × List Char
  | '-' :: rest => (true, rest)
  | '+' :: rest => (false, rest)
  | cs => (false, cs)

/-- The value of a nonempty run of digits and nothing else. -/
def digits? (cs : List Char) : Option Nat :=
  if !cs.isEmpty && cs.all Char.isDigit then some (Decimal.digitsValue cs) else none

def int? (s : String) : Option Int := do
  let signed := splitSign (← normalized s)
  let size ← digits? signed.2
  return if signed.1 then -(size : Int) else size

def digitLimit : Nat := 4300

def tooManyDigits (count : Nat) : String :=
  "Exceeds the limit (" ++ toString digitLimit ++ " digits) for integer string conversion: " ++
    "value has " ++ toString count ++
    " digits; use sys.set_int_max_str_digits() to increase the limit"

/-- The digits and underscores at the front of an integer, behind white space and a sign. -/
def leadingDigits (s : String) : List Char :=
  let cs := (s.toList.dropWhile Text.isWhite).map plainDigit
  (splitSign cs).2.takeWhile fun c => c.isDigit || c = '_'

/-- The number of digits that an integer begins with, if they are too many. What follows them does
not matter then. -/
def excess? (s : String) : Option Nat := do
  let digits ← withoutUnderscores none (leadingDigits s)
  if digitLimit < digits.length then some digits.length else none

/-- An exponent mark with its signed digits, up to the end; no characters mean exponent zero. -/
def exponent? : List Char → Option Int
  | [] => some 0
  | mark :: rest =>
    if mark = 'e' || mark = 'E' then do
      let signed := splitSign rest
      let size ← digits? signed.2
      return if signed.1 then -(size : Int) else size
    else none

/-- The decimal an unsigned numeral spells. -/
def decimal? (cs : List Char) : Option Decimal := do
  let whole := cs.takeWhile Char.isDigit
  let rest := cs.dropWhile Char.isDigit
  let pointed := match rest with
    | '.' :: after => (after.takeWhile Char.isDigit, after.dropWhile Char.isDigit)
    | _ => ([], rest)
  if whole.isEmpty && pointed.1.isEmpty then none
  else
    let exponent ← exponent? pointed.2
    let plain := Decimal.ofParts whole pointed.1
    return ⟨plain.digits, plain.exponent + exponent⟩

def unsignedFloat? (cs : List Char) : Option Float :=
  let word := String.ofList (cs.map Char.toLower)
  if word = "inf" || word = "infinity" then some (Float.ofBits infinityBits.toUInt64)
  else if word = "nan" then some (0.0 / 0.0)
  else (decimal? cs).map Decimal.toFloat

def float? (s : String) : Option Float := do
  let signed := splitSign (← normalized s)
  let size ← unsignedFloat? signed.2
  return if signed.1 then -size else size

end Lox.Numeral
