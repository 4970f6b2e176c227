/-!
# Paths

A path is where it starts and the parts it goes through. Its text is read with empty parts and
single dots left out, and kept otherwise: `..` is not resolved, since what it leads to depends on
the directory. Two slashes at the front are a start of their own; three or more count as one.
-/

namespace Lox

inductive Origin where
  | here
  | root
  | secondRoot
  deriving DecidableEq, Repr

def Origin.text : Origin → String
  | here => ""
  | root => "/"
  | secondRoot => "//"

/-- A start and the parts that lead on from it. -/
structure Path where
  origin : Origin
  parts : List String
  deriving DecidableEq, Repr

namespace Path

/-- The stretches of characters between slashes. -/
def segments : List Char → List (List Char)
  | [] => [[]]
  | '/' :: rest => [] :: segments rest
  | c :: rest =>
    match segments rest with
    | first :: others => (c :: first) :: others
    | [] => [[c]]

/-- Where a path of some characters starts. -/
def originOf : List Char → Origin
  | '/' :: '/' :: '/' :: _ => .root
  | '/' :: '/' :: _ => .secondRoot
  | '/' :: _ => .root
  | _ => .here

def ofText (text : String) : Path :=
  let parts := (segments text.toList).map String.ofList
  ⟨originOf text.toList, parts.filter fun part => part ≠ "" && part ≠ "."⟩

/-- The text of a path; one without parts and origin is written as a dot. -/
def text (path : Path) : String :=
  let text := path.origin.text ++ String.intercalate "/" path.parts
  if text.isEmpty then "." else text

/-- The path with something added to its last part. -/
def extend (path : Path) (ending : String) : Path :=
  { path with parts := path.parts.dropLast ++ [path.parts.getLastD "" ++ ending] }

end Path

end Lox
