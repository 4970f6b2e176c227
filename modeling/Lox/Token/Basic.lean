import Lox.Json.Basic

/-!
# Tokens

A token is a word of the language: its kind, the text it was made from, the number or string it
stands for and the line on which it starts.
-/

namespace Lox

inductive Kind where
  | leftParen
  | rightParen
  | leftBrace
  | rightBrace
  | comma
  | dot
  | minus
  | plus
  | semicolon
  | slash
  | star
  | bang
  | bangEqual
  | equal
  | equalEqual
  | greater
  | greaterEqual
  | less
  | lessEqual
  | identifier
  | string
  | number
  | andWord
  | classWord
  | elseWord
  | falseWord
  | funWord
  | forWord
  | ifWord
  | nilWord
  | orWord
  | printWord
  | returnWord
  | superWord
  | thisWord
  | trueWord
  | varWord
  | whileWord
  | eof
  deriving DecidableEq, Inhabited, Repr

namespace Kind

def marks : List Kind :=
  [leftParen, rightParen, leftBrace, rightBrace, comma, dot, minus, plus, semicolon, slash, star,
    bang, bangEqual, equal, equalEqual, greater, greaterEqual, less, lessEqual]

def reserved : List Kind :=
  [andWord, classWord, elseWord, falseWord, funWord, forWord, ifWord, nilWord, orWord, printWord,
    returnWord, superWord, thisWord, trueWord, varWord, whileWord]

def all : List Kind :=
  marks ++ [identifier, string, number] ++ reserved ++ [eof]

/-- The text of a kind: the mark or word itself, or a description of the kinds with varying text. -/
def text : Kind → String
  | leftParen => "("
  | rightParen => ")"
  | leftBrace => "\x7b"
  | rightBrace => "\x7d"
  | comma => ","
  | dot => "."
  | minus => "-"
  | plus => "+"
  | semicolon => ";"
  | slash => "/"
  | star => "*"
  | bang => "!"
  | bangEqual => "!="
  | equal => "="
  | equalEqual => "=="
  | greater => ">"
  | greaterEqual => ">="
  | less => "<"
  | lessEqual => "<="
  | identifier => "identifier"
  | string => "string"
  | number => "number"
  | andWord => "and"
  | classWord => "class"
  | elseWord => "else"
  | falseWord => "false"
  | funWord => "fun"
  | forWord => "for"
  | ifWord => "if"
  | nilWord => "nil"
  | orWord => "or"
  | printWord => "print"
  | returnWord => "return"
  | superWord => "super"
  | thisWord => "this"
  | trueWord => "true"
  | varWord => "var"
  | whileWord => "while"
  | eof => "eof"

/-- The name of a kind in tree files. -/
def name : Kind → String
  | leftParen => "LEFT_PAREN"
  | rightParen => "RIGHT_PAREN"
  | leftBrace => "LEFT_BRACE"
  | rightBrace => "RIGHT_BRACE"
  | comma => "COMMA"
  | dot => "DOT"
  | minus => "MINUS"
  | plus => "PLUS"
  | semicolon => "SEMICOLON"
  | slash => "SLASH"
  | star => "STAR"
  | bang => "BANG"
  | bangEqual => "BANG_EQUAL"
  | equal => "EQUAL"
  | equalEqual => "EQUAL_EQUAL"
  | greater => "GREATER"
  | greaterEqual => "GREATER_EQUAL"
  | less => "LESS"
  | lessEqual => "LESS_EQUAL"
  | identifier => "IDENTIFIER"
  | string => "STRING"
  | number => "NUMBER"
  | andWord => "AND"
  | classWord => "CLASS"
  | elseWord => "ELSE"
  | falseWord => "FALSE"
  | funWord => "FUN"
  | forWord => "FOR"
  | ifWord => "IF"
  | nilWord => "NIL"
  | orWord => "OR"
  | printWord => "PRINT"
  | returnWord => "RETURN"
  | superWord => "SUPER"
  | thisWord => "THIS"
  | trueWord => "TRUE"
  | varWord => "VAR"
  | whileWord => "WHILE"
  | eof => "EOF"

def ofName? (name : String) : Option Kind :=
  all.find? fun kind => kind.name = name

/-- The kind of a word: a reserved word if the whole word is one, else an identifier. -/
def ofWord (word : String) : Kind :=
  (reserved.find? fun kind => kind.text = word).getD identifier

/-- Whether a statement may begin with this kind, so that the parser can take up again there. -/
def startsStatement : Kind → Bool
  | classWord | funWord | varWord | forWord | ifWord | whileWord | printWord | returnWord
  | leftBrace => true
  | _ => false

end Kind

/-- A token. Its lexeme is a text, and its literal is `null` unless the token stands for a number or
a string; a tree file may put any document in either place. -/
structure Token where
  kind : Kind
  lexeme : Json
  literal : Json
  line : Int
  deriving Inhabited, Repr

namespace Token

/-- The token that ends a list of tokens. -/
def endAt (line : Int) : Token :=
  ⟨.eof, .str "", .null, line⟩

def text (t : Token) : String :=
  t.lexeme.display

/-- Equality of tokens, bit for bit in their floats. -/
def same (a b : Token) : Bool :=
  a.kind = b.kind && a.lexeme.same b.lexeme && a.literal.same b.literal && a.line = b.line

/-- A token as shown to the curious. -/
def inspect (t : Token) : String :=
  let literal := match t.literal with
    | .null => ""
    | value => ", " ++ value.inspect
  "Token(" ++ t.kind.name ++ ", " ++ t.lexeme.inspect ++ literal ++ ", line=" ++
    toString t.line ++ ")"

end Token

end Lox
