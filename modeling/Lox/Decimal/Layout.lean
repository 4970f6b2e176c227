import Lox.Decimal.Shortest

/-!
# Layouts of numbers

How a float is written once its digits are known: with a point or with an exponent, and with which
words for the values that are no numbers. The digits are always the shortest that read back.
-/

namespace Lox

/-- The decisions of one way to write floats. -/
structure NumberLayout where
  /-- Whether a number whose leading digit stands at this power of ten is written with a point. -/
  positional : Int → Bool
  /-- Whether an integral number still ends in `.0`. -/
  pointZero : Bool
  infinity : String
  notANumber : String

namespace NumberLayout

/-- Digits with a point after the first `before` of them; zeros fill the places without a digit. -/
def withPoint (pointZero : Bool) (digits : List Char) (before : Int) : List Char :=
  if before ≤ 0 then
    '0' :: '.' :: List.replicate (-before).toNat '0' ++ digits
  else if (digits.length : Int) ≤ before then
    digits ++ List.replicate (before.toNat - digits.length) '0' ++
      (if pointZero then ['.', '0'] else [])
  else digits.take before.toNat ++ '.' :: digits.drop before.toNat

/-- Digits with an exponent of at least two digits and a sign. -/
def withExponent (digits : List Char) (exponent : Int) : List Char :=
  let power := Nat.toDigits 10 exponent.natAbs
  let mantissa := match digits with
    | [] => ['0']
    | [digit] => [digit]
    | digit :: rest => digit :: '.' :: rest
  mantissa ++ ['e', if exponent < 0 then '-' else '+'] ++
    (if power.length < 2 then '0' :: power else power)

/-- The digits of a decimal without zeros at their end, and the number of places before the
point. -/
def significant (d : Decimal) : List Char × Int :=
  let digits := Nat.toDigits 10 d.digits
  ((digits.reverse.dropWhile (· == '0')).reverse, (digits.length : Int) + d.exponent)

def magnitudeText (layout : NumberLayout) (x : Float) : List Char :=
  if (magnitude x).1 = 0 then '0' :: (if layout.pointZero then ['.', '0'] else [])
  else
    let parts := significant (Decimal.shortest x)
    if layout.positional (parts.2 - 1) then withPoint layout.pointZero parts.1 parts.2
    else withExponent parts.1 (parts.2 - 1)

def write (layout : NumberLayout) (x : Float) : String :=
  if x.isNaN then layout.notANumber
  else
    let sign := if signBit x then "-" else ""
    if x.isInf then sign ++ layout.infinity
    else sign ++ String.ofList (layout.magnitudeText x)

end NumberLayout

end Lox
