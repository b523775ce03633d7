import TclWords.Escape

/-!
Words in double quotes.

A quoted word ends at the next double quote that no backslash precedes. Between the
quotes backslash sequences are decoded and everything else stands for itself.
-/

namespace TclWords.Quoted

open TclWords.Reader

/-- One more character of a word whose contents begin at `start`, or nothing when
the closing quote has been passed. -/
def step (strict : Bool) (start : Nat) : Reader (Option CodePoint) := do
  match ← readOne with
  | none => failAt start (.unterminatedQuote start)
  | some char =>
    if char = .doubleQuote then return none
    else if char = .backslash then some <$> rewindingTo start (Escape.read strict)
    else return some char

theorem consuming_step (strict : Bool) (start : Nat) : Consuming (step strict start) := by
  apply Consuming.readOne_bind
  · intro source position item after warnings
    exact failAt_ne_ok
  · intro char
    simp only
    split
    · exact forward_pure none
    split
    · exact ((Escape.forward_read strict).rewindingTo start).map some
    · exact forward_pure _

theorem forward_step (strict : Bool) (start : Nat) : Forward (step strict start) := by
  apply forward_readOne.bind
  intro char?
  cases char? with
  | none => exact forward_failAt _ _
  | some char =>
      simp only
      split
      · exact forward_pure none
      split
      · exact ((Escape.forward_read strict).rewindingTo start).map some
      · exact forward_pure _

/-- The contents of a quoted word behind its opening quote. The closing quote is
passed. -/
def read (strict : Bool) : Reader Text := do
  let start ← position
  repeatedly (step strict start) (consuming_step strict start)

theorem forward_read (strict : Bool) : Forward (read strict) :=
  forward_position.bind fun start => forward_repeatedly _ (forward_step strict start)

end TclWords.Quoted
