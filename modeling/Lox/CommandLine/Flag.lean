/-!
# Flags

The flags of the command line. Three of them take a value and choose what is to be done; at most
one of these may be given.
-/

namespace Lox.CommandLine

/-- What a flag with a value asks for. -/
inductive Mode where
  | evaluate
  | emitTree
  | runTree
  deriving DecidableEq, Repr

inductive Flag where
  | help
  | verbose
  | plain
  | mode (mode : Mode)
  deriving DecidableEq, Repr

namespace Flag

def names : Flag → List String
  | help => ["-h", "--help"]
  | verbose => ["-v"]
  | plain => ["--no-color"]
  | mode .evaluate => ["-e", "--eval"]
  | mode .emitTree => ["--emit-ast"]
  | mode .runTree => ["--ast"]

/-- A flag as error messages call it. -/
def label (flag : Flag) : String :=
  String.intercalate "/" flag.names

def all : List Flag :=
  [help, verbose, plain, mode .evaluate, mode .emitTree, mode .runTree]

def named : List (String × Flag) :=
  all.flatMap fun flag => flag.names.map (·, flag)

def ofName? (name : String) : Option Flag :=
  (named.find? (·.1 = name)).map Prod.snd

/-- The flag whose name is a dash and a letter. -/
def ofLetter? (letter : Char) : Option Flag :=
  ofName? (String.ofList ['-', letter])

/-- The names that begin with a text, each with its flag. -/
def startingWith (start : String) : List (String × Flag) :=
  named.filter fun entry => start.toList.isPrefixOf entry.1.toList

end Flag

/-- Why the arguments cannot be understood. -/
inductive Misuse where
  | ambiguous (argument : String) (candidates : List String)
  | valueMissing (flag : Flag)
  | valueIgnored (flag : Flag) (value : String)
  | conflict (flag other : Flag)
  | unrecognized (arguments : List String)
  | scriptBesideMode
  deriving DecidableEq, Repr

end Lox.CommandLine
