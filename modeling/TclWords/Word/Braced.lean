import TclWords.Escape

/-!
Words in braces.

A braced word ends at the matching close brace; the braces that a backslash
precedes do not count. Its contents are kept as they are, backslashes included,
except that a backslash before the end of a line is folded with it into one space.
-/

namespace TclWords.Braced

open TclWords.Reader

/-- What follows a backslash: a folded line end, or the backslash with the character
that it protects. -/
def afterBackslash : Reader Text := do
  match ← peekOne with
  | none => return [.backslash]
  | some char =>
    if char = .newline then
      return [← Escape.read false]
    else
      return .backslash :: (← readOne).toList

/-- The piece of a word that begins with `char`, inside of `inner` braces of its own,
together with the number of those that are open behind it. Nothing if `char` closes
the word. -/
def pieceAfter (inner : Nat) (char : CodePoint) : Reader (Option (Text × Nat)) :=
  if char = .backslash then do
    return some (← afterBackslash, inner)
  else if char = .openBrace then return some ([char], inner + 1)
  else if char = .closeBrace then
    match inner with
    | 0 => return none
    | inner + 1 => return some ([char], inner)
  else return some ([char], inner)

/-- The next piece of a word whose contents begin at `start`. -/
def step (start inner : Nat) : Reader (Option (Text × Nat)) := do
  match ← readOne with
  | none => failAt start (.unterminatedBrace start (inner + 1))
  | some char => pieceAfter inner char

theorem forward_afterBackslash : Forward afterBackslash := by
  apply forward_peekOne.bind
  intro char?
  cases char? with
  | none => exact forward_pure _
  | some char =>
      simp only
      split
      · exact (Escape.forward_read false).bind fun _ => forward_pure _
      · exact forward_readOne.bind fun _ => forward_pure _

theorem forward_pieceAfter (inner : Nat) (char : CodePoint) :
    Forward (pieceAfter inner char) := by
  unfold pieceAfter
  split
  · exact forward_afterBackslash.bind fun _ => forward_pure _
  split
  · exact forward_pure _
  split
  · split <;> exact forward_pure _
  · exact forward_pure _

theorem consuming_step (start inner : Nat) : Consuming (step start inner) := by
  apply Consuming.readOne_bind
  · intro source position item after warnings
    exact failAt_ne_ok
  · intro char
    exact forward_pieceAfter inner char

theorem forward_step (start inner : Nat) : Forward (step start inner) := by
  apply forward_readOne.bind
  intro char?
  cases char? with
  | none => exact forward_failAt _ _
  | some char => exact forward_pieceAfter inner char

/-- The contents of a braced word behind its opening brace. The closing brace is
passed. -/
def read : Reader Text := do
  let start ← position
  return (← collect (step start) (consuming_step start) 0).flatten

theorem forward_read : Forward read :=
  forward_position.bind fun start =>
    (forward_collect _ _ (forward_step start) 0).bind fun _ => forward_pure _

end TclWords.Braced
