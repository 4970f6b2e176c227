import Lox.Directory.Path
import Lox.Text.Quoted

/-!
# Directories

The files that a program can see, as they stand around the directory it works in. A path is followed
part by part, so `..` after something that is no folder fails where a shortened path would not. All
that is above the directory is taken for folders about which nothing else is known.
-/

namespace Lox

/-- Where a path leads: the parts from the root or from the directory worked in, with `..` resolved
except at the front. -/
structure Place where
  fromRoot : Bool
  parts : List String
  deriving DecidableEq, Repr

namespace Place

def isTop (place : Place) : Bool :=
  place.parts.all (· = "..")

/-- The folder that holds a place; the root holds itself. -/
def up (place : Place) : Place :=
  if place.isTop then if place.fromRoot then place else { place with parts := ".." :: place.parts }
  else { place with parts := place.parts.dropLast }

def enter (place : Place) (name : String) : Place :=
  { place with parts := place.parts ++ [name] }

def isWithin (place folder : Place) : Bool :=
  place.fromRoot = folder.fromRoot && folder.parts.isPrefixOf place.parts

def text (place : Place) : String :=
  (Path.mk (if place.fromRoot then .root else .here) place.parts).text

end Place

inductive Entry where
  | file (bytes : ByteArray)
  | folder

def Entry.isFile (bytes : ByteArray) : Entry → Bool
  | file found => found.data = bytes.data
  | folder => false

/-- Why a file cannot be read or written. -/
inductive FileFault where
  | missing
  | notAFolder
  | isAFolder
  | nameTooLong
  | zeroByte
  deriving DecidableEq, Repr

namespace FileFault

/-- The number of a fault and its wording, if it has a number. -/
def numbered? : FileFault → Option (Nat × String)
  | missing => some (2, "No such file or directory")
  | notAFolder => some (20, "Not a directory")
  | isAFolder => some (21, "Is a directory")
  | nameTooLong => some (36, "File name too long")
  | zeroByte => none

def message (fault : FileFault) (path : String) : String :=
  match fault.numbered? with
  | some (number, wording) =>
    "[Errno " ++ toString number ++ "] " ++ wording ++ ": " ++ Text.quoted path
  | none => "embedded null byte"

end FileFault

/-- The entries that are known, each at its place. Folders that only lead to other entries need
none. -/
structure Directory where
  entries : List (Place × Entry)

namespace Directory

def empty : Directory := ⟨[]⟩

def get? (directory : Directory) (place : Place) : Option Entry :=
  if place.isTop then some .folder
  else
    match directory.entries.find? (·.1 = place) with
    | some (_, entry) => some entry
    | none => if directory.entries.any (·.1.isWithin place) then some .folder else none

def put (directory : Directory) (place : Place) (entry : Entry) : Directory :=
  ⟨(place, entry) :: directory.entries.filter (·.1 ≠ place)⟩

/-- What was put at a place stands there. -/
theorem get?_put_self (directory : Directory) (place : Place) (entry : Entry)
    (hplace : place.isTop = false) : (directory.put place entry).get? place = some entry := by
  simp [get?, put, hplace]

/-- The longest name that an entry may have, in bytes. -/
def nameLimit : Nat := 255

/-- The longest text that a path may have, in bytes. -/
def pathLimit : Nat := 4095

/-- The place to which some parts lead. Only what they go through has to exist. -/
def follow (directory : Directory) (place : Place) : List String → Except FileFault Place
  | [] => .ok place
  | part :: rest =>
    match directory.get? place with
    | none => .error .missing
    | some (.file _) => .error .notAFolder
    | some .folder =>
      if nameLimit < part.utf8ByteSize then .error .nameTooLong
      else if part = ".." then directory.follow place.up rest
      else directory.follow (place.enter part) rest

def locate (directory : Directory) (path : Path) : Except FileFault Place :=
  if path.text.toList.contains (Char.ofNat 0) then .error .zeroByte
  else if pathLimit < path.text.utf8ByteSize then .error .nameTooLong
  else directory.follow ⟨path.origin ≠ .here, []⟩ path.parts

def read (directory : Directory) (path : Path) : Except FileFault ByteArray := do
  match directory.get? (← directory.locate path) with
  | some (.file bytes) => .ok bytes
  | some .folder => .error .isAFolder
  | none => .error .missing

/-- The place of a file that can be written. -/
def target (directory : Directory) (path : Path) : Except FileFault Place := do
  let place ← directory.locate path
  match directory.get? place with
  | some .folder => .error .isAFolder
  | _ => .ok place

def putText (directory : Directory) (place : Place) (text : String) : Directory :=
  directory.put place (.file text.toUTF8)

/-- The files of a directory that are new or differ from those before. -/
def changes (directory before : Directory) : List (Place × ByteArray) :=
  directory.entries.filterMap fun entry =>
    match entry.2 with
    | .file bytes =>
      if (before.get? entry.1).any (·.isFile bytes) then none else some (entry.1, bytes)
    | .folder => none

end Directory

end Lox
