import Lox.Decimal.Basic

/-!
# The shortest decimal of a float

A float is shown with the fewest digits that read back to it. The search starts from its exact
decimal value and drops as many digits as possible: on each coarser grid the two neighbours of the
value are tried, and the first grid where one of them reads back decides. Of two neighbours the
nearer one is taken, and on a tie the one with the even last digit. When no digit can be dropped
the exact value itself remains, so whatever is found reads back.
-/

namespace Lox.Decimal

/-- The decimals on either side of `d` once its last `dropped` digits are cut off. -/
def neighbours (d : Decimal) (dropped : Nat) : Decimal × Decimal :=
  let kept := d.digits / Nat.pow 10 dropped
  (⟨kept, d.exponent + dropped⟩, ⟨kept + 1, d.exponent + dropped⟩)

/-- Whether the upper neighbour is the better one: nearer, or as near and even. -/
def prefersUpper (d : Decimal) (dropped : Nat) : Bool :=
  let unit := Nat.pow 10 dropped
  let rest := 2 * (d.digits % unit)
  unit < rest || (rest = unit && d.digits / unit % 2 = 1)

/-- The best decimal that passes `reads` with at most `dropped` digits of `d` cut off. -/
def shortestFrom (reads : Decimal → Bool) (d : Decimal) : Nat → Decimal
  | 0 => d
  | dropped + 1 =>
    let pair := neighbours d (dropped + 1)
    match reads pair.1, reads pair.2 with
    | true, true => if prefersUpper d (dropped + 1) then pair.2 else pair.1
    | true, false => pair.1
    | false, true => pair.2
    | false, false => shortestFrom reads d dropped

def digitCount (n : Nat) : Nat :=
  (Nat.toDigits 10 n).length

/-- The shortest decimal that reads back to the magnitude of a finite float. -/
def shortest (x : Float) : Decimal :=
  let parts := magnitude x
  let exact := ofBinary parts.1 parts.2
  let size := Float.ofBits (x.toBits.toNat % signPlace).toUInt64
  shortestFrom (fun d => d.toFloat = size) exact (digitCount exact.digits - 1)

end Lox.Decimal
