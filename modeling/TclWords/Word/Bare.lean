import TclWords.Escape

/-!
Words without delimiters.

A bare word ends before the first blank that no backslash precedes, or at the end
of the input. Backslash sequences are decoded and everything else stands for itself.
-/

namespace TclWords.Bare

open TclWords.Reader

/-- One more character of a word that begins at `start`, or nothing at its end. -/
def step (strict : Bool) (start : Nat) : Reader (Option CodePoint) := do
  match ← peekOne with
  | none => return none
  | some next =>
    if next.isBlank then return none
    else
      match ← readOne with
      | none => return none
      | some char =>
        if char = .backslash then some <$> rewindingTo start (Escape.read strict)
        else return some char

theorem consuming_step (strict : Bool) (start : Nat) : Consuming (step strict start) := by
  apply Consuming.peekOne_bind
  intro next?
  cases next? with
  | none => exact consuming_none
  | some next =>
      simp only
      split
      · exact consuming_none
      · apply Consuming.readOne_bind
        · intro source position item after warnings run
          cases run
        · intro char
          simp only
          split
          · exact ((Escape.forward_read strict).rewindingTo start).map some
          · exact forward_pure _

theorem forward_step (strict : Bool) (start : Nat) : Forward (step strict start) := by
  apply forward_peekOne.bind
  intro next?
  cases next? with
  | none => exact forward_pure none
  | some next =>
      simp only
      split
      · exact forward_pure none
      · apply forward_readOne.bind
        intro char?
        cases char? with
        | none => exact forward_pure none
        | some char =>
            simp only
            split
            · exact ((Escape.forward_read strict).rewindingTo start).map some
            · exact forward_pure _

/-- A bare word from its first character on. The blank that ends it is not passed. -/
def read (strict : Bool) : Reader Text := do
  let start ← position
  repeatedly (step strict start) (consuming_step strict start)

end TclWords.Bare
