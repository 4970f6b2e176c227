import Lox.CommandLine.Flag

/-!
# Usage and help

The two texts that tell how the program is called. Both are laid out for the width of the terminal:
as many parts as fit go on a line, and a part that is too wide has a line of its own. The usage
lists the flags and then the script. The help goes on with a sentence about each of them, in a
column that begins as far to the right as the width allows.
-/

namespace Lox.CommandLine

/-! ## Filling lines -/

/-- Puts parts on lines of a width, one blank between two parts. The line begun so far holds some
parts and ends at column `used`; every later line begins behind `margin` columns. -/
def fillFrom (width margin : Int) (used : Int) (line : List String) :
    List String → List (List String)
  | [] => if line.isEmpty then [] else [line]
  | part :: rest =>
    if width < used + 1 + part.length && !line.isEmpty then
      line :: fillFrom width margin (margin + part.length) [part] rest
    else fillFrom width margin (used + 1 + part.length) (line ++ [part]) rest

/-- The lines of some parts, where `first` columns of the first line and `margin` columns of every
later line are taken. -/
def fill (width first margin : Int) (parts : List String) : List String :=
  (fillFrom width margin (first - 1) [] parts).map (String.intercalate " ")

def blanks (count : Nat) : String :=
  String.ofList (List.replicate count ' ')

/-! ## What is said -/

def program : String := "treelox"

/-- What a flag takes as its value, as the texts call it. -/
def Mode.valueName : Mode → String
  | .evaluate => "EXPRESSION"
  | .emitTree => "SCRIPT"
  | .runTree => "AST_JSON_FILE"

/-- A name of a flag with the value that stands behind it. -/
def Flag.withValue (flag : Flag) (name : String) : String :=
  match flag with
  | .mode taker => name ++ " " ++ taker.valueName
  | _ => name

def Flag.invocation (flag : Flag) : String :=
  String.intercalate ", " (flag.names.map flag.withValue)

def Flag.shortest (flag : Flag) : String :=
  flag.withValue (flag.names.headD "")

def Flag.about : Flag → String
  | .help => "show this help message and exit"
  | .verbose => "increase debug verbosity (can be repeated)"
  | .plain => "print diagnostics without colors"
  | .mode .evaluate => "evaluate one expression and print its value"
  | .mode .emitTree => "emit AST JSON for the given script"
  | .mode .runTree => "execute AST from a JSON file"

/-- The flags as parts of the usage: those that exclude one another are one part. -/
def flagParts : List String :=
  let single := [Flag.help, .verbose, .plain].map fun flag => "[" ++ flag.shortest ++ "]"
  let modes := [Mode.evaluate, .emitTree, .runTree].map fun mode => (Flag.mode mode).shortest
  single ++ ["[" ++ String.intercalate " | " modes ++ "]"]

def scriptParts : List String := ["[script]"]

/-! ## The usage -/

def usageHeading : String := "usage: "

/-- The lines of the usage that stand behind or below the name of the program where one line is not
enough. The name stands alone if it takes more than three quarters of the width. -/
def usageLines (width : Int) : List String :=
  let heading := usageHeading.length
  let named := heading + program.length
  if 4 * (named : Int) ≤ 3 * width then
    let margin := named + 1
    let below := fun lines : List String => lines.map (blanks margin ++ ·)
    match fill width heading margin (program :: flagParts) with
    | [] => below (fill width margin margin scriptParts)
    | first :: others => first :: below (others ++ fill width margin margin scriptParts)
  else
    let lines := fill width heading heading (flagParts ++ scriptParts)
    let apart := fill width heading heading flagParts ++ fill width heading heading scriptParts
    program :: (if lines.length ≤ 1 then lines else apart).map (blanks heading ++ ·)

def usage (width : Int) : String :=
  let whole := String.intercalate " " (program :: flagParts ++ scriptParts)
  let lines :=
    if usageHeading.length + whole.length ≤ width then [whole] else usageLines width
  usageHeading ++ String.intercalate "\n" lines ++ "\n"

/-! ## The help -/

/-- The least width of a text, however narrow the terminal is. -/
def leastWidth : Int := 11

def paragraph (width : Int) (text : String) : List String :=
  fill (max width leastWidth) 0 0 (text.splitOn " ")

/-- The column where the sentences of the help begin. -/
def sentenceColumn (width : Int) : Nat :=
  min 24 (max (width - 20) 4).toNat

/-- The lines about one item: its sentence begins behind it if the item is short enough, and on the
next line otherwise. -/
def itemLines (width : Int) (item about : String) : List String :=
  let column := sentenceColumn width
  let sentence := paragraph (width - column) about
  let room := column - 4
  if item.length ≤ room then
    let first := "  " ++ item ++ blanks (room - item.length) ++ "  " ++ sentence.headD ""
    first :: sentence.tail.map (blanks column ++ ·)
  else ("  " ++ item) :: sentence.map (blanks column ++ ·)

def helpText (width : Int) : String :=
  let description := paragraph width "treelox language interpreter"
  let script :=
    itemLines width "script" "script to run (if omitted, starts the interactive shell)"
  let flags := Flag.all.flatMap fun flag => itemLines width flag.invocation flag.about
  let lines := "" :: description ++ "" :: "positional arguments:" :: script ++
    "" :: "options:" :: flags
  usage width ++ String.join (lines.map (· ++ "\n"))

end Lox.CommandLine
