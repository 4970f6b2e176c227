/-!
# Decimal numbers and floats

A decimal is a natural number of digits with a power of ten. This file reads a decimal as the
nearest float and a float as the decimal it denotes exactly. Both directions are exact integer
arithmetic on the bits of the float, so that a decimal is read the same however it is spelled.
-/

namespace Lox

/-- The number `digits * 10 ^ exponent`. -/
structure Decimal where
  digits : Nat
  exponent : Int
  deriving DecidableEq, Repr

/-- The quotient of two naturals rounded to the nearest natural, a half to the even one. -/
def roundedQuotient (num den : Nat) : Nat :=
  let whole := num / den
  let rest := 2 * (num % den)
  if den < rest || (rest = den && whole % 2 = 1) then whole + 1 else whole

/-- A fraction divided by `2 ^ power`, as a numerator and a denominator. -/
def scaledDown (num den : Nat) (power : Int) : Nat × Nat :=
  if 0 ≤ power then (num, den * Nat.pow 2 power.toNat) else (num * Nat.pow 2 (-power).toNat, den)

/-- The power of two at or below a positive fraction: the two logarithms give it up to one. -/
def binaryExponent (num den : Nat) : Int :=
  let guess : Int := (num.log2 : Int) - (den.log2 : Int)
  let scaled := scaledDown num den guess
  if scaled.2 ≤ scaled.1 then guess else guess - 1

/-- The bit that leads the mantissa of a normal float, `2 ^ 52`. -/
def leadingBit : Nat := 0x10000000000000

/-- The bit that holds the sign of a float, `2 ^ 63`. -/
def signPlace : Nat := 0x8000000000000000

def infinityBits : Nat := 0x7FF0000000000000

/-- The float nearest to `num / den`, a tie to the even mantissa. The fraction is reduced first, so
only its value matters. A float is a mantissa times a power of two that is at least `-1074`, and
the bits of a non-negative one are `(power + 1074) * 2 ^ 52 + mantissa`. -/
def floatOfFraction (num den : Nat) : Float :=
  if num = 0 then 0
  else
    let common := num.gcd den
    let num := num / common
    let den := den / common
    let power := max (binaryExponent num den - 52) (-1074)
    let scaled := scaledDown num den power
    let bits := (power + 1074).toNat * leadingBit + roundedQuotient scaled.1 scaled.2
    Float.ofBits (min bits infinityBits).toUInt64

namespace Decimal

/-- The largest power of ten that is still worked out; every float lies well inside it. -/
def exponentBound : Nat := 400

/-- The float nearest to a decimal. An exponent far outside the range of floats settles the answer
without its power of ten. -/
def toFloat (d : Decimal) : Float :=
  if d.digits = 0 then 0
  else if (exponentBound : Int) < d.exponent then Float.ofBits infinityBits.toUInt64
  else if d.exponent + (d.digits.log2 + 1 : Nat) < -(exponentBound : Int) then 0
  else if 0 ≤ d.exponent then floatOfFraction (d.digits * Nat.pow 10 d.exponent.toNat) 1
  else floatOfFraction d.digits (Nat.pow 10 (-d.exponent).toNat)

def ofBinary (mantissa : Nat) (power : Int) : Decimal :=
  if 0 ≤ power then ⟨mantissa * Nat.pow 2 power.toNat, 0⟩
  else ⟨mantissa * Nat.pow 5 (-power).toNat, power⟩

def digitsValue (cs : List Char) : Nat :=
  cs.foldl (fun value c => 10 * value + (c.toNat - '0'.toNat)) 0

/-- The decimal written with some digits before the point and some after it. -/
def ofParts (whole fraction : List Char) : Decimal :=
  ⟨digitsValue (whole ++ fraction), -(fraction.length : Int)⟩

end Decimal

/-! ## The parts of a float -/

def signBit (x : Float) : Bool :=
  signPlace ≤ x.toBits.toNat

/-- The mantissa and the power of two of the magnitude of a finite float. -/
def magnitude (x : Float) : Nat × Int :=
  let bits := x.toBits.toNat % signPlace
  let power : Nat := bits / leadingBit
  let fraction : Nat := bits % leadingBit
  if power = 0 then (fraction, -1074) else (leadingBit + fraction, (power : Int) - 1075)

/-- The integer part of a finite float, rounded toward zero. -/
def truncated (x : Float) : Int :=
  let parts := magnitude x
  let whole :=
    if 0 ≤ parts.2 then parts.1 * Nat.pow 2 parts.2.toNat
    else parts.1 / Nat.pow 2 (-parts.2).toNat
  if signBit x then -(whole : Int) else whole

def intEqFloat (n : Int) (x : Float) : Bool :=
  x.isFinite && truncated x = n &&
    (let parts := magnitude x
     0 ≤ parts.2 || parts.1 % Nat.pow 2 (-parts.2).toNat = 0)

/-- The float nearest to an integer; `none` when that float is infinite. -/
def floatOfInt? (n : Int) : Option Float :=
  let x := Decimal.toFloat ⟨n.natAbs, 0⟩
  if x.isInf then none else some (if n < 0 then -x else x)

end Lox
