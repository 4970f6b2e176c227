import Lox.Text.Quoted

/-!
# Text in bytes

A file holds the UTF-8 bytes of a text. Bytes that are not the encoding of any text are refused with
the place of the first fault: the bytes of the character that went wrong, as far as they were right,
and the reason why the next byte does not go on from there. Line ends are made alike: a carriage
return, alone or before a newline, reads as a newline.
-/

namespace Lox.Text

/-- Why some bytes are the start of no character. -/
inductive Misfit where
  | startByte
  | continuationByte
  | endOfData
  deriving DecidableEq, Repr

def Misfit.message : Misfit → String
  | startByte => "invalid start byte"
  | continuationByte => "invalid continuation byte"
  | endOfData => "unexpected end of data"

/-- Bytes that are the start of no character: the first of them, its position, how many they are and
why they go no further. -/
structure EncodingFault where
  position : Nat
  first : UInt8
  count : Nat
  reason : Misfit
  deriving DecidableEq, Repr

/-- The wording of a fault: a single byte is shown, more than one only by their positions. -/
def EncodingFault.message (fault : EncodingFault) : String :=
  let bytes :=
    if fault.count = 1 then
      "byte 0x" ++ String.ofList (hexDigits 2 fault.first.toNat) ++ " in position " ++
        toString fault.position
    else
      "bytes in position " ++ toString fault.position ++ "-" ++
        toString (fault.position + fault.count - 1)
  "'utf-8' codec can't decode " ++ bytes ++ ": " ++ fault.reason.message

/-- The ranges of the bytes that continue a character, or nothing if its first byte starts none. -/
def owedRanges (first : UInt8) : Option (List (UInt8 × UInt8)) :=
  let tail : UInt8 × UInt8 := (0x80, 0xBF)
  if first ≤ 0x7F then some []
  else if first ≤ 0xC1 then none
  else if first ≤ 0xDF then some [tail]
  else if first = 0xE0 then some [(0xA0, 0xBF), tail]
  else if first = 0xED then some [(0x80, 0x9F), tail]
  else if first ≤ 0xEF then some [tail, tail]
  else if first = 0xF0 then some [(0x90, 0xBF), tail, tail]
  else if first ≤ 0xF3 then some [tail, tail, tail]
  else if first = 0xF4 then some [(0x80, 0x8F), tail, tail]
  else none

/-- A character of which some bytes are still owed. -/
structure OpenChar where
  position : Nat
  first : UInt8
  count : Nat
  owed : List (UInt8 × UInt8)

/-- The fault of a character that does not go on. -/
def OpenChar.fault (char : OpenChar) (reason : Misfit) : EncodingFault :=
  ⟨char.position, char.first, char.count, reason⟩

/-- The first fault of bytes that stand from a position on and go on with an open character. Where
every character is whole the fault is that the bytes end. -/
def firstFault (position : Nat) (char : OpenChar) : List UInt8 → EncodingFault
  | [] => char.fault .endOfData
  | byte :: rest =>
    match char.owed with
    | [] =>
      match owedRanges byte with
      | some owed => firstFault (position + 1) ⟨position, byte, 1, owed⟩ rest
      | none => ⟨position, byte, 1, .startByte⟩
    | range :: owed =>
      if range.1 ≤ byte && byte ≤ range.2 then
        firstFault (position + 1) { char with count := char.count + 1, owed } rest
      else char.fault .continuationByte

def decode (bytes : ByteArray) : Except EncodingFault String :=
  match String.fromUTF8? bytes with
  | some text => .ok text
  | none => .error (firstFault 0 ⟨0, 0, 0, []⟩ bytes.toList)

/-- The bytes of a text decode to it. -/
theorem decode_toUTF8 (text : String) : decode text.toUTF8 = .ok text := by
  simp [decode, String.fromUTF8?, String.toUTF8, text.isValidUTF8, String.fromUTF8]

/-- Characters with every line end made a newline. -/
def unifyLineEnds : List Char → List Char
  | [] => []
  | '\r' :: '\n' :: rest => '\n' :: unifyLineEnds rest
  | '\r' :: rest => '\n' :: unifyLineEnds rest
  | c :: rest => c :: unifyLineEnds rest

/-- Without carriage returns all line ends are alike already. -/
theorem unifyLineEnds_eq_self (cs : List Char) (hcs : '\r' ∉ cs) : unifyLineEnds cs = cs := by
  induction cs with
  | nil => rfl
  | cons c rest ih =>
    have hc : c ≠ '\r' := fun e => hcs (by simp [e])
    have hrest : '\r' ∉ rest := fun h => hcs (List.mem_cons_of_mem _ h)
    rw [unifyLineEnds]
    · rw [ih hrest]
    · intro _ e
      exact absurd e hc
    · exact hc

/-- The text of a file: its bytes decoded, with every line end made a newline. -/
def ofFile (bytes : ByteArray) : Except EncodingFault String := do
  let text ← decode bytes
  return String.ofList (unifyLineEnds text.toList)

/-- A text without carriage returns is read as it was written. -/
theorem ofFile_toUTF8 (text : String) (htext : '\r' ∉ text.toList) :
    ofFile text.toUTF8 = .ok text := by
  rw [ofFile, decode_toUTF8]
  show Except.ok (String.ofList (unifyLineEnds text.toList)) = Except.ok text
  rw [unifyLineEnds_eq_self _ htext, String.ofList_toList]

end Lox.Text
