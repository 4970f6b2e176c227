import Lox.CommandLine.Flag
import Lox.Decimal.Numeral
import Lox.Text.Quoted

/-!
# Requests

What the arguments of a command ask for. They are understood in two passes. The first looks at each
argument alone and tells flags from plain words, so that an ambiguous flag is found before anything
else. The second goes through the words in order: flags take effect, the first plain word that no
flag takes as its value is the script, and what is left over is refused in the end.
-/

namespace Lox.CommandLine

def Misuse.message : Misuse → String
  | ambiguous argument candidates =>
    "ambiguous option: " ++ argument ++ " could match " ++ String.intercalate ", " candidates
  | valueMissing flag => "argument " ++ flag.label ++ ": expected one argument"
  | valueIgnored flag value =>
    "argument " ++ flag.label ++ ": ignored explicit argument " ++ Text.quoted value
  | conflict flag other =>
    "argument " ++ flag.label ++ ": not allowed with argument " ++ other.label
  | unrecognized arguments => "unrecognized arguments: " ++ String.intercalate " " arguments
  | scriptBesideMode => "a script cannot be combined with -e, --emit-ast or --ast"

/-! ## Single arguments -/

/-- How a flag is written: with two dashes and perhaps a value after an equals sign, or as a letter
with characters behind it. -/
inductive Form where
  | long (value : Option String)
  | short (behind : List Char)
  deriving DecidableEq, Repr

/-- One argument, looked at alone. -/
inductive Word where
  | plain (text : String)
  | separator
  | flag (flag : Flag) (form : Form)
  | unknown (text : String)
  deriving DecidableEq, Repr

/-- Whether a character is a decimal digit of some script. -/
def isDigit (c : Char) : Bool :=
  (Numeral.plainDigit c).isDigit

/-- Whether some characters are digits, or a point with digits behind it and perhaps before it. -/
def isUnsignedNumber (cs : List Char) : Bool :=
  match cs.dropWhile isDigit with
  | [] => !cs.isEmpty
  | '.' :: fraction => !fraction.isEmpty && fraction.all isDigit
  | _ => false

/-- Whether an argument is a negative number; a newline at its end does not matter. -/
def isNegativeNumber : List Char → Bool
  | '-' :: rest =>
    isUnsignedNumber rest || (rest.getLast? = some '\n' && isUnsignedNumber rest.dropLast)
  | _ => false

/-- An argument that begins like a flag and is none. -/
def looseWord (text : String) : Word :=
  if isNegativeNumber text.toList || text.toList.contains ' ' then .plain text else .unknown text

/-- The name at the front of an argument, and the value after the first equals sign if there is
one. -/
def splitValue (argument : List Char) : String × Option String :=
  let name := String.ofList (argument.takeWhile (· != '='))
  match argument.dropWhile (· != '=') with
  | _ :: value => (name, some (String.ofList value))
  | [] => (name, none)

/-- An argument of two dashes. The start of a name stands for its flag if it starts only one. -/
def namedWord (text : String) : Except Misuse Word :=
  let split := splitValue text.toList
  match Flag.ofName? split.1, Flag.startingWith split.1 with
  | some flag, _ | none, [(_, flag)] => .ok (.flag flag (.long split.2))
  | none, [] => .ok (looseWord text)
  | none, several => .error (.ambiguous text (several.map Prod.fst))

/-- What an argument is. A dash alone is a plain word. -/
def wordOf (text : String) : Except Misuse Word :=
  match text.toList with
  | '-' :: '-' :: _ => namedWord text
  | '-' :: letter :: behind =>
    match Flag.ofLetter? letter with
    | some flag => .ok (.flag flag (.short behind))
    | none => .ok (looseWord text)
  | _ => .ok (.plain text)

/-- What some arguments are. After the separator all are plain. -/
def wordsOf : List String → Except Misuse (List Word)
  | [] => .ok []
  | text :: rest =>
    if text = "--" then .ok (.separator :: rest.map .plain)
    else do
      let word ← wordOf text
      return word :: (← wordsOf rest)

/-! ## Clusters of flags -/

inductive Tail where
  | nothing
  | value (mode : Mode) (value : Option String)
  | wantsValue (mode : Mode)
  deriving DecidableEq, Repr

/-- The flags in one argument: those without a value, and how they end. -/
structure Cluster where
  flags : List Flag
  tail : Tail
  deriving DecidableEq, Repr

namespace Cluster

def single : Flag → Cluster
  | .mode mode => ⟨[], .wantsValue mode⟩
  | flag => ⟨[flag], .nothing⟩

/-- The value that some text behind a flag is. The separator is dropped even there, and leaves the
flag without a value. -/
def valueOf (text : String) : Option String :=
  if text = "--" then none else some text

def valued : Flag → String → Except Misuse Cluster
  | .mode mode, value => .ok ⟨[], .value mode (valueOf value)⟩
  | flag, value => .error (.valueIgnored flag value)

/-- A letter and the characters behind it. They are its value if it takes one, and further letters
otherwise. -/
def letters (flag : Flag) : List Char → Except Misuse Cluster
  | [] => .ok (single flag)
  | c :: rest =>
    match flag, Flag.ofLetter? c with
    | .mode mode, _ => .ok ⟨[], .value mode (valueOf (String.ofList (c :: rest)))⟩
    | _, none => .error (.valueIgnored flag (String.ofList (c :: rest)))
    | _, some next => do
      let cluster ← letters next rest
      return { cluster with flags := flag :: cluster.flags }

/-- The flags of an argument. An equals sign right behind the first letter is passed over. -/
def ofForm (flag : Flag) : Form → Except Misuse Cluster
  | .long (some value) => valued flag value
  | .long none => .ok (single flag)
  | .short ['='] => valued flag ""
  | .short ('=' :: behind) => letters flag behind
  | .short behind => letters flag behind

end Cluster

/-! ## All arguments -/

/-- What the arguments up to some point ask for. -/
structure Choices where
  level : Nat
  plain : Bool
  mode : Option (Mode × Option String)
  script : Option String
  leftover : List String
  deriving DecidableEq, Repr

/-- Why the arguments lead to no request. -/
inductive Refusal where
  | help
  | misuse (misuse : Misuse)
  deriving DecidableEq, Repr

namespace Choices

def initial : Choices :=
  ⟨0, false, none, none, []⟩

/-- Keeps an argument that has no use. -/
def refuse (choices : Choices) (text : String) : Choices :=
  { choices with leftover := choices.leftover ++ [text] }

/-- Takes a flag without a value. -/
def raise (choices : Choices) : Flag → Except Refusal Choices
  | .help => .error .help
  | .verbose => .ok { choices with level := choices.level + 1 }
  | .plain => .ok { choices with plain := true }
  | .mode _ => .ok choices

/-- Takes a flag with its value. A second value for one flag replaces the first. -/
def choose (choices : Choices) (mode : Mode) (value : Option String) : Except Refusal Choices :=
  match choices.mode with
  | some (other, _) =>
    if other = mode then .ok { choices with mode := some (mode, value) }
    else .error (.misuse (.conflict (.mode mode) (.mode other)))
  | none => .ok { choices with mode := some (mode, value) }

def take (choices : Choices) (cluster : Cluster) : Except Refusal Choices :=
  match cluster.tail with
  | .value mode value => do
    (← cluster.flags.foldlM raise choices).choose mode value
  | .nothing | .wantsValue _ => cluster.flags.foldlM raise choices

/-- Takes a plain word that is not the value of a flag: the first one is the script. -/
def takePlain (choices : Choices) (text : String) : Choices :=
  if choices.script.isSome then choices.refuse text else { choices with script := some text }

/-- Takes the words that are left. The separator is dropped where it stands before the script or
right behind it. -/
def settle (choices : Choices) : List Word → Except Refusal Choices
  | [] => .ok choices
  | .unknown text :: rest => (choices.refuse text).settle rest
  | .separator :: rest =>
    if choices.script.isSome then (choices.refuse "--").settle rest else choices.settle rest
  | .plain text :: .separator :: rest =>
    if choices.script.isSome then ((choices.refuse text).refuse "--").settle rest
    else (choices.takePlain text).settle rest
  | .plain text :: rest => (choices.takePlain text).settle rest
  | .flag flag form :: rest =>
    match Cluster.ofForm flag form with
    | .error misuse => .error (.misuse misuse)
    | .ok ⟨flags, .wantsValue mode⟩ =>
      match rest with
      | .plain value :: rest => do
        (← choices.take ⟨flags, .value mode (some value)⟩).settle rest
      | _ => .error (.misuse (.valueMissing (.mode mode)))
    | .ok cluster => do
      (← choices.take cluster).settle rest

end Choices

/-- What is to be done. The text to evaluate may be missing. -/
inductive Task where
  | evaluate (expression : Option String)
  | emitTree (script : String)
  | runTree (file : String)
  | runScript (script : String)
  | talk
  deriving DecidableEq, Repr

/-- A task, the level of the trace and whether errors are shown without colours. -/
structure Request where
  level : Nat
  plain : Bool
  task : Task
  deriving DecidableEq, Repr

/-- A task for a file; an empty name counts as none. -/
def fileTask? (task : String → Task) (file : Option String) : Option Task :=
  (file.filter fun name => !name.isEmpty).map task

def Choices.modeTask? (choices : Choices) : Option Task :=
  match choices.mode with
  | some (.evaluate, expression) => some (.evaluate expression)
  | some (.emitTree, script) => fileTask? .emitTree script
  | some (.runTree, file) => fileTask? .runTree file
  | none => none

def Choices.scriptTask? (choices : Choices) : Option Task :=
  fileTask? .runScript choices.script

def Choices.request (choices : Choices) : Except Misuse Request :=
  if choices.leftover.isEmpty then
    match choices.modeTask?, choices.scriptTask? with
    | some _, some _ => .error .scriptBesideMode
    | some task, none | none, some task => .ok ⟨choices.level, choices.plain, task⟩
    | none, none => .ok ⟨choices.level, choices.plain, .talk⟩
  else .error (.unrecognized choices.leftover)

def Request.ofArguments (arguments : List String) : Except Refusal Request := do
  let words ← (wordsOf arguments).mapError .misuse
  let choices ← Choices.initial.settle words
  choices.request.mapError .misuse

end Lox.CommandLine
