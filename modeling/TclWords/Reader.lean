import TclWords.Source

/-!
Readers: steps over a source that may fail and may warn.

A run of a reader always says where it left the position and which warnings it
gave, also if it failed. `Reader.readOne`, `Reader.peek`, `Reader.position` and
`Reader.seek` are all that the readers of words know of a source.
-/

namespace TclWords

/-- What running a reader gives. -/
structure Run (α : Type) where
  result : Except Fault α
  position : Nat
  warnings : List Warning

/-- The same run after earlier warnings. -/
def Run.precededBy {α : Type} (run : Run α) (earlier : List Warning) : Run α :=
  { run with warnings := earlier ++ run.warnings }

/-- Reads a source from a position on. -/
def Reader (α : Type) : Type :=
  Source → Nat → Run α

namespace Reader

variable {α β : Type}

/-- Reads nothing. -/
protected def pure (value : α) : Reader α :=
  fun _ position => ⟨.ok value, position, []⟩

/-- Reads on from where the first reader succeeded. -/
protected def bind (first : Reader α) (next : α → Reader β) : Reader β :=
  fun source position =>
    match first source position with
    | ⟨.error fault, after, warnings⟩ => ⟨.error fault, after, warnings⟩
    | ⟨.ok value, after, warnings⟩ => (next value source after).precededBy warnings

instance : Monad Reader where
  pure := Reader.pure
  bind := Reader.bind

def fail (fault : Fault) : Reader α :=
  fun _ position => ⟨.error fault, position, []⟩

def warn (warning : Warning) : Reader Unit :=
  fun _ position => ⟨.ok (), position, [warning]⟩

/-- Where the source stands. A file may be unable to tell. -/
def position : Reader Nat :=
  fun source position => ⟨source.tell? position, position, []⟩

/-- Moves to a position. One that is not admitted leaves the old position. -/
def seek (target : Int) : Reader Unit :=
  fun source position =>
    match source.seek? target with
    | .ok sought => ⟨.ok (), sought, []⟩
    | .error fault => ⟨.error fault, position, []⟩

/-- Fails after going back to `start`. -/
def failAt (start : Nat) (fault : Fault) : Reader α := do
  seek start
  fail fault

/-- Goes back to `start` if the word read is at fault, and still fails. -/
def rewindingTo (start : Nat) (reader : Reader α) : Reader α :=
  fun source position =>
    match reader source position with
    | ⟨.error fault, after, warnings⟩ =>
      if fault.IsReadFault then
        (failAt start fault source after).precededBy warnings
      else ⟨.error fault, after, warnings⟩
    | ⟨.ok value, after, warnings⟩ => ⟨.ok value, after, warnings⟩

/-- The character at the position, which is passed, or nothing at the end of the
input. A stream of bytes gives up one byte before it turns out to be the wrong
kind of stream, and bytes of a file that are no text are passed as one. -/
def readOne : Reader (Option CodePoint) :=
  fun source position =>
    match source with
    | .indexed text | .stepping text | .stream text =>
      match text[position]? with
      | some char => ⟨.ok (some char), position + 1, []⟩
      | none => ⟨.ok none, position, []⟩
    | .binary bytes =>
      ⟨.error .binarySource, if position < bytes.length then position + 1 else position, []⟩
    | .file handle =>
      if !handle.isOpen then ⟨.error .closedFile, position, []⟩
      else
        match handle.text[position]? with
        | some char => ⟨.ok (some char), position + 1, []⟩
        | none =>
          if position = handle.text.length && !handle.decodable then
            ⟨.error .undecodable, position + 1, []⟩
          else ⟨.ok none, position, []⟩

/-- Reads up to `count` characters. -/
def readUpTo : Nat → Reader Text
  | 0 => pure []
  | count + 1 => do
    match ← readOne with
    | none => return []
    | some char => return char :: (← readUpTo count)

/-- Looks ahead by reading on and going back. -/
def peekByReading (count : Int) : Reader Text := do
  let start ← position
  let ahead ← readUpTo count.toNat
  seek start
  return ahead

/-- Up to `count` characters ahead, which are not passed. Of a text in memory this
is a slice, so that a negative count stops before the end of the text; of a stream
a negative count means all that is left. A file first has to tell where to go back.
Counts of any size are admitted; a machine that counts in words of 64 bits refuses
those of a stream from 2 ^ 63 on. -/
def peek (count : Int) : Reader Text :=
  fun source position =>
    match source with
    | .indexed text => ⟨.ok (text.slice position (position + count)), position, []⟩
    | .stepping _ => peekByReading count source position
    | .stream text =>
      let left := text.drop position
      ⟨.ok (if count < 0 then left else left.take count.toNat), position, []⟩
    | .binary _ => ⟨.error .binarySource, position, []⟩
    | .file handle =>
      match source.tell? position with
      | .error fault => ⟨.error fault, position, []⟩
      | .ok _ =>
        let left := handle.text.drop position
        let reachesEnd := count < 0 || left.length < count
        if reachesEnd && position ≤ handle.text.length && !handle.decodable then
          ⟨.error .undecodable, handle.text.length + 1, []⟩
        else ⟨.ok (if count < 0 then left else left.take count.toNat), position, []⟩

/-- The next character, which is not passed. -/
def peekOne : Reader (Option CodePoint) := do
  return (← peek 1).head?

end Reader

end TclWords
