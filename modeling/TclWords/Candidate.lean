import TclWords.Source

/-!
What may be read as a source.

A cursor is taken as it is, and anything that can be read, told its position and
moved is taken as a stream. Everything else is refused by the name of its type.
-/

namespace TclWords

/-- The ways of moving over a source. -/
inductive CursorKind where
  | indexed
  | stepping
  | stream
deriving DecidableEq

/-- What is offered as a source. -/
inductive Candidate where
  | cursor (kind : CursorKind)
  | object (typeName : Text) (attributes : List Text)
deriving DecidableEq

namespace Candidate

/-- The abilities that make a stream. -/
def streamAttributes : List Text :=
  [Text.ofString "read", Text.ofString "tell", Text.ofString "seek"]

/-- The cursor that a candidate is read with. -/
def accept : Candidate → Except Fault CursorKind
  | .cursor kind => .ok kind
  | .object typeName attributes =>
    if streamAttributes.all attributes.contains then .ok .stream
    else .error (.notASource typeName)

end Candidate

/-- Whether a cursor that is offered again is accepted as itself. -/
def CursorKind.isKept (kind : CursorKind) : Bool :=
  match (Candidate.cursor kind).accept with
  | .ok accepted => accepted == kind
  | .error _ => false

/-- What a source is offered as: the texts in memory come with a cursor of their
own, the others are streams. -/
def Source.candidate : Source → Candidate
  | .indexed _ => .cursor .indexed
  | .stepping _ => .cursor .stepping
  | .stream _ => .object (Text.ofString "stream") Candidate.streamAttributes
  | .binary _ => .object (Text.ofString "binary stream") Candidate.streamAttributes
  | .file _ => .object (Text.ofString "file") Candidate.streamAttributes

end TclWords
