/-!
# Blank characters

The Unicode white space characters stand around numerals without being part of them. Stripping a
text removes these from its ends, and also the four ASCII separators `1C` to `1F`.
-/

namespace Lox.Text

def inRanges (ranges : List (Nat × Nat)) (point : Nat) : Bool :=
  ranges.any fun range => range.1 ≤ point && point ≤ range.2

def whiteRanges : List (Nat × Nat) :=
  [(0x9, 0xD), (0x20, 0x20), (0x85, 0x85), (0xA0, 0xA0), (0x1680, 0x1680), (0x2000, 0x200A),
    (0x2028, 0x2029), (0x202F, 0x202F), (0x205F, 0x205F), (0x3000, 0x3000)]

def isWhite (c : Char) : Bool :=
  inRanges whiteRanges c.toNat

/-- Whether stripping removes a character. -/
def isBlank (c : Char) : Bool :=
  isWhite c || inRanges [(0x1C, 0x1F)] c.toNat

/-- A list of characters without those of some kind at its ends. -/
def trim (kind : Char → Bool) (cs : List Char) : List Char :=
  ((cs.dropWhile kind).reverse.dropWhile kind).reverse

def strip (s : String) : String :=
  String.ofList (trim isBlank s.toList)

end Lox.Text
