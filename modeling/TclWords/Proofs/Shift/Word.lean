import TclWords.Proofs.Shift

/-!
The readers of words shift.

Owns: for every reader of backslash sequences and of words, that it does the same on two
sources that are aligned. Each lemma follows the reader it is about, part by part.
-/

namespace TclWords

open TclWords.Reader

variable {left right : Source} {offset start : Nat}

namespace Escape

private theorem shifts_number (radix : Radix) (literal : Text) :
    Shifts left right offset id (number radix literal) (number radix literal) := by
  unfold number
  split
  · exact shifts_pure rfl
  · exact shifts_fail id (.badNumber radix literal)

theorem shifts_octal (first : Text) :
    Shifts left right offset id (octal first) (octal first) :=
  (shifts_span _ _).bind fun _ => (shifts_number _ _).bind fun _ => shifts_pure rfl

theorem shifts_hexadecimal : Shifts left right offset id hexadecimal hexadecimal := by
  apply (shifts_span _ _).bind
  intro digits
  simp only [id_eq]
  split
  · exact shifts_pure rfl
  · exact (shifts_number _ _).bind fun _ => shifts_pure rfl

theorem shifts_unicode : Shifts left right offset id unicode unicode := by
  apply (shifts_span _ _).bind
  intro digits
  simp only [id_eq]
  split
  · exact shifts_pure rfl
  · exact (shifts_number _ _).bind fun _ => shifts_pure rfl

private theorem shifts_readAfter (strict : Bool) (aligned : left.Aligned right offset start)
    (char : CodePoint) :
    Shifts left right offset id (readAfter strict start char)
      (readAfter strict (start + offset) char) := by
  unfold readAfter
  split
  · exact shifts_pure rfl
  split
  · exact (shifts_span _ _).bind fun _ => shifts_pure rfl
  split
  · exact shifts_pure rfl
  split
  · exact shifts_octal [char]
  split
  · exact shifts_hexadecimal.bind fun _ => shifts_pure rfl
  split
  · exact shifts_unicode.bind fun _ => shifts_pure rfl
  split
  · exact shifts_failAt id aligned (.unknownEscape char start)
  · exact shifts_pure rfl

theorem shifts_read (strict : Bool) :
    Shifts left right offset id (read strict) (read strict) := by
  apply shifts_position_bind
  intro start aligned
  apply shifts_readOne.bind
  intro char?
  cases char? with
  | none =>
      simp only [id_eq]
      split
      · exact shifts_fail id (.danglingBackslash start)
      · exact (shifts_warn (.keptBackslash start)).bind fun _ => shifts_pure rfl
  | some char => exact shifts_readAfter strict aligned char

end Escape

namespace Quoted

private theorem shifts_step (strict : Bool) (aligned : left.Aligned right offset start) :
    Shifts left right offset id (step strict start) (step strict (start + offset)) := by
  apply shifts_readOne.bind
  intro char?
  cases char? with
  | none => exact shifts_failAt id aligned (.unterminatedQuote start)
  | some char =>
      simp only [id_eq]
      split
      · exact shifts_pure rfl
      split
      · exact ((Escape.shifts_read strict).rewindingTo aligned).map fun _ => rfl
      · exact shifts_pure rfl

theorem shifts_read (strict : Bool) :
    Shifts left right offset id (read strict) (read strict) :=
  shifts_position_bind fun _ aligned => shifts_repeatedly (shifts_step strict aligned)

end Quoted

namespace Bare

private theorem shifts_step (strict : Bool) (aligned : left.Aligned right offset start) :
    Shifts left right offset id (step strict start) (step strict (start + offset)) := by
  apply shifts_peekOne.bind
  intro next?
  cases next? with
  | none => exact shifts_pure rfl
  | some next =>
      simp only [id_eq]
      split
      · exact shifts_pure rfl
      · apply shifts_readOne.bind
        intro char?
        cases char? with
        | none => exact shifts_pure rfl
        | some char =>
            simp only [id_eq]
            split
            · exact ((Escape.shifts_read strict).rewindingTo aligned).map fun _ => rfl
            · exact shifts_pure rfl

theorem shifts_read (strict : Bool) :
    Shifts left right offset id (read strict) (read strict) :=
  shifts_position_bind fun _ aligned => shifts_repeatedly (shifts_step strict aligned)

end Bare

namespace Braced

private theorem shifts_afterBackslash :
    Shifts left right offset id afterBackslash afterBackslash := by
  apply shifts_peekOne.bind
  intro char?
  cases char? with
  | none => exact shifts_pure rfl
  | some char =>
      simp only [id_eq]
      split
      · exact (Escape.shifts_read false).bind fun _ => shifts_pure rfl
      · exact shifts_readOne.bind fun _ => shifts_pure rfl

private theorem shifts_pieceAfter (inner : Nat) (char : CodePoint) :
    Shifts left right offset id (pieceAfter inner char) (pieceAfter inner char) := by
  unfold pieceAfter
  split
  · exact shifts_afterBackslash.bind fun _ => shifts_pure rfl
  split
  · exact shifts_pure rfl
  split
  · cases inner with
    | zero => exact shifts_pure rfl
    | succ inner => exact shifts_pure rfl
  · exact shifts_pure rfl

private theorem shifts_step (aligned : left.Aligned right offset start) (inner : Nat) :
    Shifts left right offset id (step start inner) (step (start + offset) inner) := by
  apply shifts_readOne.bind
  intro char?
  cases char? with
  | none => exact shifts_failAt id aligned (.unterminatedBrace start (inner + 1))
  | some char => exact shifts_pieceAfter inner char

theorem shifts_read : Shifts left right offset id read read :=
  shifts_position_bind fun _ aligned =>
    (shifts_collect (shifts_step aligned) 0).bind fun _ => shifts_pure rfl

end Braced

namespace Word

private theorem shifts_readBody (strict : Bool) (aligned : left.Aligned right offset start)
    (char : CodePoint) :
    Shifts left right offset id (readBody strict start char)
      (readBody strict (start + offset) char) := by
  unfold readBody
  split
  · exact Quoted.shifts_read strict
  split
  · exact Braced.shifts_read
  · exact (shifts_seek aligned).bind fun _ => Bare.shifts_read strict

theorem shifts_readValue (strict : Bool) :
    Shifts left right offset id (readValue strict) (readValue strict) := by
  apply (shifts_span _ _).bind
  intro blanks
  apply shifts_position_bind
  intro start aligned
  apply shifts_readOne.bind
  intro char?
  cases char? with
  | none => exact shifts_pure rfl
  | some char =>
      exact ((shifts_readBody strict aligned char).rewindingTo aligned).map fun _ => rfl

/-- A word is the same word where it stands further on, except for its positions. -/
theorem shifts_read (strict : Bool) :
    Shifts left right offset (Option.map (shift offset)) (read strict) (read strict) := by
  apply (shifts_span _ _).bind
  intro blanks
  apply shifts_position_bind
  intro start _
  apply (shifts_peek (by omega)).bind
  intro opening
  apply (shifts_readValue strict).bind
  intro value?
  cases value? with
  | none => exact shifts_pure rfl
  | some value => exact shifts_position_bind fun _ _ => shifts_pure rfl

theorem shifts_readPast (strict : Bool) :
    Shifts left right offset id (readPast strict) (readPast strict) := by
  apply (shifts_peek (by omega)).bind
  intro ahead
  simp only [id_eq]
  split
  · exact (shifts_span _ _).bind fun _ => shifts_pure rfl
  · exact (shifts_readValue strict).bind fun _ => (shifts_span _ _).bind fun _ => shifts_pure rfl

private theorem shifts_readPastMany (strict : Bool) (count : Nat) :
    Shifts left right offset id (readPastMany strict count) (readPastMany strict count) := by
  induction count with
  | zero => exact shifts_pure rfl
  | succ count inductionHypothesis =>
      exact (shifts_readPast strict).bind fun _ => inductionHypothesis

theorem shifts_moveTo (strict : Bool) (number : Int) :
    Shifts left right offset id (moveTo strict number) (moveTo strict number) :=
  shifts_readPastMany strict number.toNat

private theorem shifts_sourceStep (stop : Int) :
    Shifts left right offset id (sourceStep stop) (sourceStep (stop + offset)) := by
  apply shifts_position_bind
  intro position _
  have sameEnd : ((position + offset : Nat) : Int) = stop + offset ↔ (position : Int) = stop := by
    omega
  simp only [sameEnd]
  split
  · exact shifts_pure rfl
  · exact shifts_readOne

theorem shifts_sourceBetween (aligned : left.Aligned right offset start) (stop : Int) :
    Shifts left right offset id (sourceBetween start stop)
      (sourceBetween (start + offset : Nat) (stop + offset)) := by
  apply shifts_position_bind
  intro back alignedBack
  apply (shifts_seek aligned).bind
  intro _
  apply (shifts_repeatedly (shifts_sourceStep stop)).bind
  intro text
  exact (shifts_seek alignedBack).bind fun _ => shifts_pure rfl

end Word

/-! ### Reading word after word -/

def Scan.shift (offset : Nat) (scanned : Scan) : Scan where
  words := scanned.words.map (Word.shift offset)
  fault? := scanned.fault?.map (Fault.shift offset)
  position := scanned.position + offset
  warnings := scanned.warnings.map (Warning.shift offset)

theorem Scan.shift_zero (scanned : Scan) : scanned.shift 0 = scanned := by
  simp only [shift, Word.shift_zero, Fault.shift_zero, Warning.shift_zero, List.map_id,
    Option.map_id_fun, id_eq, Nat.add_zero]

theorem scan_shift (strict : Bool) {position : Nat}
    (aligned : left.Aligned right offset position) :
    scan strict right (position + offset) = (scan strict left position).shift offset ∧
      left.Aligned right offset (scan strict left position).position := by
  -- On the characters left, as every word takes one.
  induction remaining : left.size - position using Nat.strongRecOn generalizing position with
  | ind count inductionHypothesis =>
      rcases Word.shifts_read strict position aligned with ⟨further, alignedBetween⟩
      rcases run : Word.read strict left position with ⟨fault | word?, between, warnings⟩
      · rw [run] at further alignedBetween
        rw [scan_of_error run, scan_of_error further]
        exact ⟨rfl, alignedBetween⟩
      · rw [run] at further alignedBetween
        cases word? with
        | none =>
            rw [scan_of_none run, scan_of_none further]
            exact ⟨rfl, alignedBetween⟩
        | some word =>
            have bounds := Word.consuming_read strict left position word between warnings run
            rcases inductionHypothesis (left.size - between) (by omega) alignedBetween rfl with
              ⟨furtherRest, alignedAfter⟩
            rw [scan_of_some run, scan_of_some further, furtherRest]
            refine ⟨?_, alignedAfter⟩
            simp only [Scan.shift, List.map_cons, List.map_append]

theorem shifts_readAll (strict : Bool) :
    Shifts left right offset (List.map (Word.shift offset)) (readAll strict)
      (readAll strict) := by
  intro position aligned
  rcases scan_shift strict aligned with ⟨further, alignedAfter⟩
  unfold readAll
  rw [further]
  cases ended : (scan strict left position).fault? with
  | none =>
      simp only [Scan.run, Scan.shift, ended, Option.map_none]
      exact ⟨rfl, alignedAfter⟩
  | some fault =>
      simp only [Scan.run, Scan.shift, ended, Option.map_some]
      exact ⟨rfl, alignedAfter⟩

theorem shifts_readValues (strict : Bool) :
    Shifts left right offset id (readValues strict) (readValues strict) := by
  apply (shifts_readAll strict).bind
  intro words
  apply shifts_pure
  simp [Word.shift]

end TclWords
