import Lox.Token.Basic

/-!
# Pieces of source text

Source text falls into consecutive pieces: runs of blanks, comments, lexemes, characters that start
nothing, and at most one string without an end. Each piece is the longest that can stand at its
place. Nothing is lost: the pieces joined give back the source (`text_pieces`).
-/

namespace Lox

inductive Piece where
  | blank (text : List Char)
  | comment (text : List Char)
  | lexeme (kind : Kind) (text : List Char)
  | openString (text : List Char)
  | rejected (c : Char)
  deriving DecidableEq, Repr

namespace Piece

def text : Piece → List Char
  | blank text | comment text | lexeme _ text | openString text => text
  | rejected c => [c]

def isSeparator (c : Char) : Bool :=
  c = ' ' || c = '\t' || c = '\r' || c = '\n'

def startsWord (c : Char) : Bool :=
  c.isAlpha || c = '_'

def continuesWord (c : Char) : Bool :=
  c.isAlphanum || c = '_'

/-- The mark that a single character spells. -/
def mark? : Char → Option Kind
  | '(' => some .leftParen
  | ')' => some .rightParen
  | '\x7b' => some .leftBrace
  | '\x7d' => some .rightBrace
  | ',' => some .comma
  | '.' => some .dot
  | '-' => some .minus
  | '+' => some .plus
  | ';' => some .semicolon
  | '/' => some .slash
  | '*' => some .star
  | '!' => some .bang
  | '=' => some .equal
  | '>' => some .greater
  | '<' => some .less
  | _ => none

/-- The mark that a character spells together with an equals sign after it. -/
def markWithEqual? : Char → Option Kind
  | '!' => some .bangEqual
  | '=' => some .equalEqual
  | '>' => some .greaterEqual
  | '<' => some .lessEqual
  | _ => none

/-- The word at the front, given its first character. -/
def cutWord (c : Char) (cs : List Char) : Piece × List Char :=
  let word := c :: cs.takeWhile continuesWord
  (lexeme (Kind.ofWord (String.ofList word)) word, cs.dropWhile continuesWord)

/-- The number at the front, given its first digit. It has a fraction only if a digit follows the
point. -/
def cutNumber (c : Char) (cs : List Char) : Piece × List Char :=
  let whole := c :: cs.takeWhile Char.isDigit
  match cs.dropWhile Char.isDigit with
  | '.' :: digit :: rest =>
    if digit.isDigit then
      (lexeme .number (whole ++ '.' :: digit :: rest.takeWhile Char.isDigit),
        rest.dropWhile Char.isDigit)
    else (lexeme .number whole, '.' :: digit :: rest)
  | rest => (lexeme .number whole, rest)

/-- The string at the front, given the characters after its quote. -/
def cutString (cs : List Char) : Piece × List Char :=
  let body := cs.takeWhile (· != '"')
  match cs.dropWhile (· != '"') with
  | quote :: rest => (lexeme .string ('"' :: body ++ [quote]), rest)
  | [] => (openString ('"' :: body), [])

/-- The comment or mark at the front, or the character rejected there. -/
def cutMark (c : Char) (cs : List Char) : Piece × List Char :=
  match cs with
  | next :: rest =>
    if c = '/' && next = '/' then
      (comment (c :: cs.takeWhile (· != '\n')), cs.dropWhile (· != '\n'))
    else
      match (if next = '=' then markWithEqual? c else none), mark? c with
      | some kind, _ => (lexeme kind [c, next], rest)
      | none, some kind => (lexeme kind [c], cs)
      | none, none => (rejected c, cs)
  | [] =>
    match mark? c with
    | some kind => (lexeme kind [c], [])
    | none => (rejected c, [])

/-- The piece at the front of a nonempty text and the characters after it. -/
def cut (c : Char) (cs : List Char) : Piece × List Char :=
  if isSeparator c then (blank (c :: cs.takeWhile isSeparator), cs.dropWhile isSeparator)
  else if startsWord c then cutWord c cs
  else if c.isDigit then cutNumber c cs
  else if c = '"' then cutString cs
  else cutMark c cs

/-! ## Nothing is lost -/

theorem text_cutNumber (c : Char) (cs : List Char) :
    (cutNumber c cs).1.text ++ (cutNumber c cs).2 = c :: cs := by
  have hwhole := List.takeWhile_append_dropWhile (p := Char.isDigit) (l := cs)
  unfold cutNumber
  split
  · next digit rest hrest =>
    split
    · simp only [text, List.cons_append, List.append_assoc, List.takeWhile_append_dropWhile]
      rw [← hrest, hwhole]
    · simp only [text, List.cons_append]
      rw [← hrest, hwhole]
  · simp only [text, List.cons_append, hwhole]

theorem text_cutString (cs : List Char) :
    (cutString cs).1.text ++ (cutString cs).2 = '"' :: cs := by
  have hbody := List.takeWhile_append_dropWhile (p := (· != '"')) (l := cs)
  unfold cutString
  split
  · next quote rest hrest =>
    simp only [text, List.cons_append, List.append_assoc, List.nil_append]
    rw [← hrest, hbody]
  · next hrest =>
    simp only [text, List.append_nil]
    rw [hrest, List.append_nil] at hbody
    rw [hbody]

theorem text_cutMark (c : Char) (cs : List Char) :
    (cutMark c cs).1.text ++ (cutMark c cs).2 = c :: cs := by
  unfold cutMark
  split
  · split
    · simp only [text, List.cons_append, List.takeWhile_append_dropWhile]
    · split <;> rfl
  · split <;> rfl

/-- A piece and what follows it are the text it was cut from. -/
theorem text_cut (c : Char) (cs : List Char) : (cut c cs).1.text ++ (cut c cs).2 = c :: cs := by
  unfold cut
  split
  · simp only [text, List.cons_append, List.takeWhile_append_dropWhile]
  · split
    · simp only [cutWord, text, List.cons_append, List.takeWhile_append_dropWhile]
    · split
      · exact text_cutNumber c cs
      · split
        · next hquote => rw [hquote]; exact text_cutString cs
        · exact text_cutMark c cs

/-- No piece is empty. -/
theorem text_cut_ne_nil (c : Char) (cs : List Char) : (cut c cs).1.text ≠ [] := by
  unfold cut
  split
  · simp [text]
  · split
    · simp [cutWord, text]
    · split
      · unfold cutNumber; split <;> (try split) <;> simp [text]
      · split
        · unfold cutString; split <;> simp [text]
        · unfold cutMark; split <;> (try split) <;> (try split) <;> simp [text]

/-- Cutting a piece makes progress. -/
theorem length_cut (c : Char) (cs : List Char) : (cut c cs).2.length < (c :: cs).length := by
  have hjoined := congrArg List.length (text_cut c cs)
  have hsome := List.length_pos_iff.mpr (text_cut_ne_nil c cs)
  rw [List.length_append] at hjoined
  omega

def pieces (cs : List Char) : List Piece :=
  match cs with
  | [] => []
  | c :: rest => (cut c rest).1 :: pieces (cut c rest).2
termination_by cs.length
decreasing_by exact length_cut c rest

/-- The pieces of a text joined are the text. -/
theorem text_pieces (cs : List Char) : (pieces cs).flatMap text = cs := by
  fun_induction pieces cs with
  | case1 => rfl
  | case2 c rest ih => rw [List.flatMap_cons, ih, text_cut]

end Piece

end Lox
