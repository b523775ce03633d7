import TclWords.Iteration

/-!
A file that has lost places is read as if it had lost none, or not at all.

Owns: `Reader.ExactOrLost`, by which a reader does on a file what it would do if the file could
tell all its places, or comes to a lost place and fails there; and that the readers of words are
of this kind, up to the reader of all words.

Only telling and looking ahead ask for a place. That a place is lost is no fault of a word, so no
reader goes back over it.
-/

namespace TclWords

/-- The file if it could tell all its places. -/
def TextFile.exact (file : TextFile) : TextFile :=
  { file with lost := [] }

namespace Reader

variable {α β σ : Type} {file : TextFile}

/-- Wherever the reader starts on the file, it does what it does if no place is lost, or it fails
at a lost place. -/
def ExactOrLost (file : TextFile) (reader : Reader α) : Prop :=
  ∀ position, reader (.file file) position = reader (.file file.exact) position ∨
    ∃ place ∈ file.lost, ∃ warnings,
      reader (.file file) position = ⟨.error .undecodable, place, warnings⟩

theorem exactOrLost_pure (value : α) : ExactOrLost file (pure value : Reader α) :=
  fun _ => .inl rfl

theorem exactOrLost_fail (fault : Fault) : ExactOrLost file (fail fault : Reader α) :=
  fun _ => .inl rfl

theorem exactOrLost_warn (warning : Warning) : ExactOrLost file (warn warning) :=
  fun _ => .inl rfl

theorem exactOrLost_seek (target : Int) : ExactOrLost file (seek target) :=
  fun _ => .inl rfl

theorem exactOrLost_readOne : ExactOrLost file readOne :=
  fun _ => .inl rfl

/-- A place is told as if none were lost, unless it is lost. -/
theorem tell?_exact_or_lost (file : TextFile) (position : Nat) :
    (Source.file file).tell? position = (Source.file file.exact).tell? position ∨
      position ∈ file.lost ∧ (Source.file file).tell? position = .error .undecodable := by
  by_cases isOpen : file.isOpen = true
  · by_cases lost : position ∈ file.lost
    · right
      exact ⟨lost, by simp [Source.tell?, isOpen, lost]⟩
    · left
      simp [Source.tell?, TextFile.exact, isOpen, lost]
  · left
    simp [Source.tell?, TextFile.exact, isOpen]

theorem exactOrLost_position : ExactOrLost file position := by
  intro here
  rcases tell?_exact_or_lost file here with told | ⟨lost, refused⟩
  · left
    rw [position, position, told]
  · right
    exact ⟨here, lost, [], by rw [position, refused]⟩

theorem exactOrLost_peek (count : Int) : ExactOrLost file (peek count) := by
  intro here
  rcases tell?_exact_or_lost file here with told | ⟨lost, refused⟩
  · left
    simp only [peek, told]
    rfl
  · right
    exact ⟨here, lost, [], by simp only [peek, refused]⟩

theorem ExactOrLost.bind {first : Reader α} {next : α → Reader β}
    (exact : ExactOrLost file first) (exactNext : ∀ value, ExactOrLost file (next value)) :
    ExactOrLost file (first >>= next) := by
  intro position
  rcases exact position with same | ⟨place, lost, warnings, failed⟩
  · rcases run : first (.file file.exact) position with ⟨fault | value, between, earlier⟩
    · left
      rw [bind_of_error (same.trans run), bind_of_error run]
    · rw [bind_of_ok (same.trans run), bind_of_ok run]
      rcases exactNext value between with sameNext | ⟨place, lost, warnings, failed⟩
      · exact .inl (congrArg (Run.precededBy · earlier) sameNext)
      · exact .inr ⟨place, lost, earlier ++ warnings, by rw [failed]; rfl⟩
  · exact .inr ⟨place, lost, warnings, bind_of_error failed⟩

theorem ExactOrLost.map {reader : Reader α} (exact : ExactOrLost file reader) (change : α → β) :
    ExactOrLost file (change <$> reader) := by
  rw [map_eq_pure_bind]
  exact exact.bind fun value => exactOrLost_pure (change value)

theorem exactOrLost_peekOne : ExactOrLost file peekOne :=
  (exactOrLost_peek 1).bind fun _ => exactOrLost_pure _

theorem exactOrLost_failAt (start : Nat) (fault : Fault) :
    ExactOrLost file (failAt start fault : Reader α) :=
  (exactOrLost_seek start).bind fun _ => exactOrLost_fail fault

/-- A lost place is not gone back over. -/
theorem ExactOrLost.rewindingTo {reader : Reader α} (exact : ExactOrLost file reader)
    (start : Nat) : ExactOrLost file (rewindingTo start reader) := by
  intro position
  rcases exact position with same | ⟨place, lost, warnings, failed⟩
  · left
    simp only [Reader.rewindingTo, same]
    rfl
  · right
    refine ⟨place, lost, warnings, ?_⟩
    simp only [Reader.rewindingTo, failed]
    rfl

theorem exactOrLost_collect {step : σ → Reader (Option (α × σ))}
    {consuming : ∀ state, Consuming (step state)}
    (exact : ∀ state, ExactOrLost file (step state)) (state : σ) :
    ExactOrLost file (collect step consuming state) := by
  intro position
  -- On the characters left, as every item takes one.
  induction remaining : (Source.file file).size - position using Nat.strongRecOn
    generalizing state position with
  | ind count inductionHypothesis =>
      rcases exact state position with same | ⟨place, lost, warnings, failed⟩
      · rcases run : step state (.file file) position with
          ⟨fault | _ | ⟨item, next⟩, between, earlier⟩
        · exact .inl ((collect_of_error run).trans (collect_of_error (same.symm.trans run)).symm)
        · exact .inl ((collect_of_none run).trans (collect_of_none (same.symm.trans run)).symm)
        · have bounds := consuming state (.file file) position _ between earlier run
          rcases inductionHypothesis ((Source.file file).size - between) (by omega) next between
            rfl with sameLater | ⟨place, lost, warnings, failed⟩
          · left
            rw [collect_of_some run sameLater, collect_of_some (same.symm.trans run) rfl]
          · exact .inr ⟨place, lost, earlier ++ warnings, collect_of_some run failed⟩
      · exact .inr ⟨place, lost, warnings, collect_of_error failed⟩

theorem exactOrLost_repeatedly {step : Reader (Option α)} {consuming : Consuming step}
    (exact : ExactOrLost file step) : ExactOrLost file (repeatedly step consuming) :=
  exactOrLost_collect (fun _ => exact.bind fun _ => exactOrLost_pure _) ()

theorem exactOrLost_span (accepts : CodePoint → Bool) (limit : Option Nat) :
    ExactOrLost file (span accepts limit) := by
  apply exactOrLost_collect
  intro limit
  apply exactOrLost_peekOne.bind
  intro char?
  cases char? with
  | none => exact exactOrLost_pure _
  | some char =>
      simp only
      split
      · exact exactOrLost_readOne.bind fun _ => exactOrLost_pure _
      · exact exactOrLost_pure _

end Reader

open TclWords.Reader

variable {file : TextFile}

/-! ### The readers of words -/

namespace Escape

private theorem exactOrLost_number (radix : Radix) (literal : Text) :
    ExactOrLost file (number radix literal) := by
  unfold number
  split
  · exact exactOrLost_pure _
  · exact exactOrLost_fail _

private theorem exactOrLost_octal (first : Text) : ExactOrLost file (octal first) :=
  (exactOrLost_span _ _).bind fun _ =>
    (exactOrLost_number _ _).bind fun _ => exactOrLost_pure _

private theorem exactOrLost_hexadecimal : ExactOrLost file hexadecimal := by
  apply (exactOrLost_span _ _).bind
  intro digits
  split
  · exact exactOrLost_pure _
  · exact (exactOrLost_number _ _).bind fun _ => exactOrLost_pure _

private theorem exactOrLost_unicode : ExactOrLost file unicode := by
  apply (exactOrLost_span _ _).bind
  intro digits
  split
  · exact exactOrLost_pure _
  · exact (exactOrLost_number _ _).bind fun _ => exactOrLost_pure _

private theorem exactOrLost_readAfter (strict : Bool) (start : Nat) (char : CodePoint) :
    ExactOrLost file (readAfter strict start char) := by
  unfold readAfter
  split
  · exact exactOrLost_pure _
  split
  · exact (exactOrLost_span _ _).bind fun _ => exactOrLost_pure _
  split
  · exact exactOrLost_pure _
  split
  · exact exactOrLost_octal _
  split
  · exact exactOrLost_hexadecimal.bind fun _ => exactOrLost_pure _
  split
  · exact exactOrLost_unicode.bind fun _ => exactOrLost_pure _
  split
  · exact exactOrLost_failAt _ _
  · exact exactOrLost_pure _

theorem exactOrLost_read (strict : Bool) : ExactOrLost file (read strict) := by
  apply exactOrLost_position.bind
  intro start
  apply exactOrLost_readOne.bind
  intro char?
  cases char? with
  | none =>
      simp only
      split
      · exact exactOrLost_fail _
      · exact (exactOrLost_warn _).bind fun _ => exactOrLost_pure _
  | some char => exact exactOrLost_readAfter strict start char

end Escape

theorem Quoted.exactOrLost_read (strict : Bool) : ExactOrLost file (Quoted.read strict) := by
  apply exactOrLost_position.bind
  intro start
  apply exactOrLost_repeatedly
  apply exactOrLost_readOne.bind
  intro char?
  cases char? with
  | none => exact exactOrLost_failAt _ _
  | some char =>
      simp only
      split
      · exact exactOrLost_pure _
      split
      · exact ((Escape.exactOrLost_read strict).rewindingTo start).map some
      · exact exactOrLost_pure _

theorem Bare.exactOrLost_read (strict : Bool) : ExactOrLost file (Bare.read strict) := by
  apply exactOrLost_position.bind
  intro start
  apply exactOrLost_repeatedly
  apply exactOrLost_peekOne.bind
  intro next?
  cases next? with
  | none => exact exactOrLost_pure _
  | some next =>
      simp only
      split
      · exact exactOrLost_pure _
      · apply exactOrLost_readOne.bind
        intro char?
        cases char? with
        | none => exact exactOrLost_pure _
        | some char =>
            simp only
            split
            · exact ((Escape.exactOrLost_read strict).rewindingTo start).map some
            · exact exactOrLost_pure _

namespace Braced

private theorem exactOrLost_afterBackslash : ExactOrLost file afterBackslash := by
  apply exactOrLost_peekOne.bind
  intro char?
  cases char? with
  | none => exact exactOrLost_pure _
  | some char =>
      simp only
      split
      · exact (Escape.exactOrLost_read false).bind fun _ => exactOrLost_pure _
      · exact exactOrLost_readOne.bind fun _ => exactOrLost_pure _

private theorem exactOrLost_step (start inner : Nat) : ExactOrLost file (step start inner) := by
  apply exactOrLost_readOne.bind
  intro char?
  cases char? with
  | none => exact exactOrLost_failAt _ _
  | some char =>
      simp only
      unfold pieceAfter
      split
      · exact exactOrLost_afterBackslash.bind fun _ => exactOrLost_pure _
      split
      · exact exactOrLost_pure _
      split
      · split <;> exact exactOrLost_pure _
      · exact exactOrLost_pure _

theorem exactOrLost_read : ExactOrLost file read := by
  apply exactOrLost_position.bind
  intro start
  exact (exactOrLost_collect (exactOrLost_step start) 0).bind fun _ => exactOrLost_pure _

end Braced

namespace Word

private theorem exactOrLost_readBody (strict : Bool) (start : Nat) (char : CodePoint) :
    ExactOrLost file (readBody strict start char) := by
  unfold readBody
  split
  · exact Quoted.exactOrLost_read strict
  split
  · exact Braced.exactOrLost_read
  · exact (exactOrLost_seek _).bind fun _ => Bare.exactOrLost_read strict

theorem exactOrLost_readValue (strict : Bool) : ExactOrLost file (readValue strict) := by
  apply (exactOrLost_span _ _).bind
  intro _
  apply exactOrLost_position.bind
  intro start
  apply exactOrLost_readOne.bind
  intro char?
  cases char? with
  | none => exact exactOrLost_pure _
  | some char => exact ((exactOrLost_readBody strict start char).rewindingTo start).map some

theorem exactOrLost_read (strict : Bool) : ExactOrLost file (read strict) := by
  apply (exactOrLost_span _ _).bind
  intro _
  apply exactOrLost_position.bind
  intro start
  apply (exactOrLost_peek 1).bind
  intro opening
  apply (exactOrLost_readValue strict).bind
  intro value?
  cases value? with
  | none => exact exactOrLost_pure _
  | some value => exact exactOrLost_position.bind fun _ => exactOrLost_pure _

end Word

/-! ### All words -/

theorem exactOrLost_readValues (strict : Bool) : ExactOrLost file (readValues strict) := by
  rw [readValues, readAll_eq_repeatedly]
  exact (exactOrLost_repeatedly (Word.exactOrLost_read strict)).bind fun _ => exactOrLost_pure _

end TclWords
