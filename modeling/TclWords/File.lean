import TclWords.Fault
import TclWords.File.Encoding

/-!
Files opened as text.

Whatever convention a file uses for the ends of its lines, its text has newlines.
A byte order mark is part of the text. `TextFile.ofBytes` says how much of a file
can be read when its bytes are no text in its encoding, and which places are lost.

Places in a file are counted in characters here. A reader holds opaque tokens for
them, and two things are taken for granted: going to the token of a place leads to
that place, and a place that is not lost has a token. A carriage return may be half
of a line end, so it is held back until the character behind it is decoded. To find
the place behind the return, or the one behind that character, the bytes of the two
are decoded once more, and how many bytes to take is a guess. If the guess goes too
far, stray bytes that happen to lie in memory behind them are decoded as well, and if
those are no text, the place is lost. No other place is.
-/

namespace TclWords

namespace Text

/-- Makes a newline of each carriage return, together with the newline behind it
if there is one. -/
def withNewlines : Text → Text
  | [] => []
  | char :: rest =>
    if char = .carriageReturn then
      match rest with
      | [] => [.newline]
      | next :: later =>
        if next = .newline then .newline :: withNewlines later
        else .newline :: withNewlines (next :: later)
    else char :: withNewlines rest

/-- The places, counted from `place` on, that are one or two characters behind a
carriage return which ends a line by itself, with a character behind it that ends
none. -/
def behindReturns (place : Nat) : Text → List Nat
  | [] => []
  | char :: rest =>
    if char = .carriageReturn then
      match rest with
      | [] => []
      | next :: later =>
        if next = .newline then behindReturns (place + 1) later
        else if next = .carriageReturn then behindReturns (place + 1) (next :: later)
        else (place + 1) :: (place + 2) :: behindReturns (place + 1) (next :: later)
    else behindReturns (place + 1) rest

end Text

/-- A file opened as text. -/
structure TextFile where
  /-- What can be read. -/
  text : Text
  /-- Whether that is all, or bytes follow that are no text. -/
  decodable : Bool
  /-- The places at which the file cannot tell where it stands. -/
  lost : List Nat
  isOpen : Bool
deriving DecidableEq

namespace TextFile

/-- A file of the given bytes. Where places behind a carriage return are looked for,
`strays` are the bytes that are decoded behind those of the file: they depend on what
was read before and on what is in memory, and are taken to be the same whenever a
place is looked for.

Files are decoded in pieces of 8192 bytes. Of a file that is one piece, a malformed
byte is found before anything is read, so no text precedes it; of a longer one the
text some pieces before could still be read, which is left out here. That the bytes
break off is found only at their end, after the text before. -/
def ofBytes (strays : Nat → List UInt8) (encoding : Encoding) (bytes : List UInt8) :
    TextFile :=
  let decoded := encoding.decode bytes
  let lost := (decoded.text.behindReturns 0).filter fun place =>
    (encoding.decode (strays place)).ending = .malformed
  match decoded.ending with
  | .complete => ⟨decoded.text.withNewlines, true, lost, true⟩
  | .truncated => ⟨decoded.text.withNewlines, false, lost, true⟩
  | .malformed => ⟨[], false, [], true⟩

/-- Opens a file of the given bytes, or one that does not exist. -/
def open? (strays : Nat → List UInt8) (bytes? : Option (List UInt8))
    (encodingName : Text) : Except Fault TextFile :=
  match bytes? with
  | none => .error .missingFile
  | some bytes =>
    match Encoding.ofName? encodingName with
    | none => .error (.unknownEncoding encodingName)
    | some encoding => .ok (ofBytes strays encoding bytes)

def close (file : TextFile) : TextFile :=
  { file with isOpen := false }

end TextFile

end TclWords
