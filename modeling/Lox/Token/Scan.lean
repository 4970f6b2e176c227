import Lox.Token.Piece
import Lox.Decimal.Basic

/-!
# Scanning

The tokens and errors of a source text. A pass cuts pieces off a text until it meets a character
that starts nothing. The scanner reports that character and begins another pass right after it, so
it keeps two numbers: how many characters are behind it, and how many lines lie before the one that
its pass counts as the first.
-/

namespace Lox

inductive ScanComplaint where
  | character (c : Char)
  | openString
  deriving DecidableEq, Repr

def ScanComplaint.message : ScanComplaint → String
  | character c => "Unexpected character " ++ Text.quoted (String.singleton c) ++ "."
  | openString => "Unterminated string."

structure ScanError where
  line : Int
  complaint : ScanComplaint
  deriving DecidableEq, Repr

namespace Piece

def numberOf (text : List Char) : Float :=
  (Decimal.ofParts (text.takeWhile Char.isDigit) ((text.dropWhile Char.isDigit).drop 1)).toFloat

/-- What a lexeme stands for: a number, the text between two quotes, or nothing. -/
def literalOf (kind : Kind) (text : List Char) : Json :=
  match kind with
  | .number => .float (numberOf text)
  | .string => .str (String.ofList (text.drop 1).dropLast)
  | _ => .null

def token? (line : Int) : Piece → Option Token
  | lexeme kind text => some ⟨kind, .str (String.ofList text), literalOf kind text, line⟩
  | _ => none

def error? (line : Int) : Piece → Option ScanError
  | openString _ => some ⟨line, .openString⟩
  | rejected c => some ⟨line, .character c⟩
  | _ => none

def newlines (piece : Piece) : Nat :=
  piece.text.count '\n'

end Piece

/-- A character that ended a pass, the number of characters before it and the line it stands on,
both counted from where the pass began. -/
structure Rejection where
  character : Char
  position : Nat
  line : Int

/-- The pieces that a pass cut off, with the lines on which they start, and the character that ended
the pass before the text was at its end. -/
structure Pass where
  pieces : List (Int × Piece)
  rejection : Option Rejection

/-- A pass over what is left of a text, after some characters of it and on some line. -/
def passFrom (position : Nat) (line : Int) (cs : List Char) : Pass :=
  match cs with
  | [] => ⟨[], none⟩
  | c :: rest =>
    match (Piece.cut c rest).1 with
    | .rejected character => ⟨[], some ⟨character, position, line⟩⟩
    | piece =>
      let others := passFrom (position + piece.text.length) (line + piece.newlines)
        (Piece.cut c rest).2
      ⟨(line, piece) :: others.pieces, others.rejection⟩
termination_by cs.length
decreasing_by exact Piece.length_cut c rest

/-- The character that ends a pass lies in the text. -/
theorem position_lt_of_rejection {position : Nat} {line : Int} {cs : List Char} {r : Rejection}
    (hrejection : (passFrom position line cs).rejection = some r) :
    r.position < position + cs.length := by
  fun_induction passFrom position line cs with
  | case1 => cases hrejection
  | case2 position line c rest =>
    cases hrejection
    change position < position + (rest.length + 1)
    omega
  | case3 position line c rest hpiece others ih =>
    have hlength := congrArg List.length (Piece.text_cut c rest)
    rw [List.length_append] at hlength
    have hlt := ih hrejection
    omega

/-- The tokens of a source text, ended by a token of the kind `eof`, and its errors. -/
structure Scan where
  tokens : List Token
  errors : List ScanError

/-- The tokens and errors of a text after an offset, with `lineBase` lines before the one that it
begins on. -/
def scanFrom (source : List Char) (offset : Nat) (lineBase : Int) : Scan :=
  let pass := passFrom 0 1 (source.drop offset)
  let tokens := pass.pieces.filterMap fun entry => entry.2.token? (lineBase + entry.1)
  let errors := pass.pieces.filterMap fun entry => entry.2.error? (lineBase + entry.1)
  match _hrejection : pass.rejection with
  | none => ⟨tokens, errors⟩
  | some rejection =>
    let line := lineBase + rejection.line
    let others := scanFrom source (offset + rejection.position + 1) (line - 1)
    ⟨tokens ++ others.tokens, errors ++ ⟨line, .character rejection.character⟩ :: others.errors⟩
termination_by source.length - offset
decreasing_by
  have hlt := position_lt_of_rejection _hrejection
  rw [List.length_drop] at hlt
  omega

def scan (source : String) : Scan :=
  let chars := source.toList
  let scanned := scanFrom chars 0 0
  { scanned with tokens := scanned.tokens ++ [Token.endAt (1 + chars.count '\n')] }

/-- How many blocks some tokens open and leave open; negative when more are closed. -/
def openBraces (tokens : List Token) : Int :=
  (tokens.countP (·.kind = .leftBrace) : Int) - tokens.countP (·.kind = .rightBrace)

end Lox
