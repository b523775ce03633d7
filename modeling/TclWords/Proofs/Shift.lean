import TclWords.Iteration
import TclWords.Proofs.Shown

/-!
Reading depends on what a source shows, and on nothing else.

Owns: `Source.Aligned`, by which two sources show the same text at positions that differ
by an offset; `Reader.Shifts`, by which a reader does the same on both of them; and that
every reader of words shifts. The positions in words, faults and warnings move by the
offset, and nothing else in them changes.
-/

namespace TclWords

/-! ### Moving positions -/

def Fault.shift (offset : Nat) : Fault → Fault
  | .unterminatedQuote start => .unterminatedQuote (start + offset)
  | .unterminatedBrace start openBraces => .unterminatedBrace (start + offset) openBraces
  | .danglingBackslash position => .danglingBackslash (position + offset)
  | .unknownEscape char position => .unknownEscape char (position + offset)
  | fault => fault

def Warning.shift (offset : Nat) : Warning → Warning
  | .keptBackslash position => .keptBackslash (position + offset)

def Word.shift (offset : Nat) (word : Word) : Word :=
  { word with start := word.start + offset, stop := word.stop + offset }

/-- The run as it goes `offset` positions further on, where `change` moves the positions
in its value. -/
def Run.shift {α β : Type} (offset : Nat) (change : α → β) (run : Run α) : Run β where
  result :=
    match run.result with
    | .ok value => .ok (change value)
    | .error fault => .error (fault.shift offset)
  position := run.position + offset
  warnings := run.warnings.map (Warning.shift offset)

theorem Fault.isReadFault_shift (offset : Nat) (fault : Fault) :
    (fault.shift offset).IsReadFault ↔ fault.IsReadFault := by
  cases fault <;> rfl

theorem Fault.shift_zero : Fault.shift 0 = id := by
  funext fault
  cases fault <;> rfl

theorem Warning.shift_zero : Warning.shift 0 = id := by
  funext warning
  cases warning
  rfl

theorem Word.shift_zero : Word.shift 0 = id :=
  rfl

namespace Run

variable {α β : Type}

theorem shift_precededBy (offset : Nat) (change : α → β) (run : Run α)
    (earlier : List Warning) :
    (run.precededBy earlier).shift offset change =
      (run.shift offset change).precededBy (earlier.map (Warning.shift offset)) := by
  apply Run.ext
  · rfl
  · rfl
  · exact List.map_append

theorem shift_zero (run : Run α) {change : α → α} (same : ∀ value, change value = value) :
    run.shift 0 change = run := by
  apply Run.ext
  · show (match run.result with
      | .ok value => .ok (change value)
      | .error fault => .error (fault.shift 0)) = run.result
    cases run.result with
    | ok value => exact congrArg Except.ok (same value)
    | error fault => exact congrArg Except.error (congrFun Fault.shift_zero fault)
  · rfl
  · show run.warnings.map (Warning.shift 0) = run.warnings
    rw [Warning.shift_zero, List.map_id]

end Run

/-! ### Sources that show the same -/

namespace Source

/-- What `left` shows at `position`, `right` shows `offset` positions further on. -/
def Aligned (left right : Source) (offset position : Nat) : Prop :=
  ∃ rest, left.Shows position rest ∧ right.Shows (position + offset) rest

end Source

namespace Reader

variable {α β γ δ σ : Type} {left right : Source} {offset start : Nat}

/-- Wherever the sources are aligned, `further` does on the right one what the reader does
on the left one, and leaves the sources aligned, whether it succeeds or fails. -/
def Shifts (left right : Source) (offset : Nat) (change : α → β) (reader : Reader α)
    (further : Reader β) : Prop :=
  ∀ position, left.Aligned right offset position →
    further right (position + offset) = (reader left position).shift offset change ∧
      left.Aligned right offset (reader left position).position

theorem shifts_pure {change : α → β} {value : α} {moved : β} (changed : change value = moved) :
    Shifts left right offset change (pure value) (pure moved) := by
  intro position aligned
  subst changed
  exact ⟨rfl, aligned⟩

theorem Shifts.bind {change : α → β} {changeNext : γ → δ} {first : Reader α}
    {firstFurther : Reader β} {next : α → Reader γ} {nextFurther : β → Reader δ}
    (shifts : Shifts left right offset change first firstFurther)
    (shiftsNext : ∀ value,
      Shifts left right offset changeNext (next value) (nextFurther (change value))) :
    Shifts left right offset changeNext (first >>= next) (firstFurther >>= nextFurther) := by
  intro position aligned
  rcases shifts position aligned with ⟨further, alignedBetween⟩
  rcases run : first left position with ⟨fault | value, between, earlier⟩
  · rw [run] at further alignedBetween
    rw [bind_of_error run, bind_of_error further]
    exact ⟨rfl, alignedBetween⟩
  · rw [run] at further alignedBetween
    rcases shiftsNext value between alignedBetween with ⟨furtherNext, alignedAfter⟩
    rw [bind_of_ok run, bind_of_ok further, Run.shift_precededBy, furtherNext]
    exact ⟨rfl, alignedAfter⟩

theorem Shifts.map {change : α → β} {changeResult : γ → δ} {reader : Reader α}
    {further : Reader β} {result : α → γ} {resultFurther : β → δ}
    (shifts : Shifts left right offset change reader further)
    (commutes : ∀ value, changeResult (result value) = resultFurther (change value)) :
    Shifts left right offset changeResult (result <$> reader) (resultFurther <$> further) := by
  rw [map_eq_pure_bind, map_eq_pure_bind]
  exact shifts.bind fun value => shifts_pure (commutes value)

/-- A reader that uses the position where it starts. -/
theorem shifts_position_bind {change : α → β} {next : Nat → Reader α}
    {nextFurther : Nat → Reader β}
    (shiftsNext : ∀ start, left.Aligned right offset start →
      Shifts left right offset change (next start) (nextFurther (start + offset))) :
    Shifts left right offset change (position >>= next) (position >>= nextFurther) := by
  rintro here ⟨rest, shown, shownFurther⟩
  have aligned : left.Aligned right offset here := ⟨rest, shown, shownFurther⟩
  rw [position_bind_of_shows shown, position_bind_of_shows shownFurther]
  exact shiftsNext here aligned here aligned

theorem shifts_fail (change : α → β) (fault : Fault) :
    Shifts left right offset change (fail fault) (fail (fault.shift offset)) :=
  fun _ aligned => ⟨rfl, aligned⟩

theorem shifts_warn (warning : Warning) :
    Shifts left right offset id (warn warning) (warn (warning.shift offset)) :=
  fun _ aligned => ⟨rfl, aligned⟩

theorem shifts_seek (aligned : left.Aligned right offset start) :
    Shifts left right offset id (seek start) (seek (start + offset : Nat)) := by
  intro position _
  have same := aligned
  rcases aligned with ⟨rest, leftShown, rightShown⟩
  rw [seek_of_shows leftShown, seek_of_shows rightShown]
  exact ⟨rfl, same⟩

theorem shifts_failAt (change : α → β) (aligned : left.Aligned right offset start)
    (fault : Fault) :
    Shifts left right offset change (failAt start fault)
      (failAt (start + offset) (fault.shift offset)) :=
  (shifts_seek aligned).bind fun _ => shifts_fail change fault

theorem Shifts.rewindingTo {change : α → β} {reader : Reader α} {further : Reader β}
    (shifts : Shifts left right offset change reader further)
    (aligned : left.Aligned right offset start) :
    Shifts left right offset change (rewindingTo start reader)
      (rewindingTo (start + offset) further) := by
  intro position alignedHere
  rcases shifts position alignedHere with ⟨furtherRun, alignedAfter⟩
  unfold Reader.rewindingTo
  rw [furtherRun]
  rcases run : reader left position with ⟨fault | value, after, warnings⟩
  · rw [run] at alignedAfter
    simp only [Run.shift, Fault.isReadFault_shift]
    split
    · rcases shifts_failAt change aligned fault after alignedAfter with ⟨failed, back⟩
      rw [failed]
      exact ⟨(Run.shift_precededBy offset change _ warnings).symm, back⟩
    · exact ⟨rfl, alignedAfter⟩
  · rw [run] at alignedAfter
    exact ⟨rfl, alignedAfter⟩

theorem shifts_readOne : Shifts left right offset id readOne readOne := by
  rintro position ⟨rest, leftShown, rightShown⟩
  cases rest with
  | nil =>
      rw [readOne_of_nil leftShown, readOne_of_nil rightShown]
      exact ⟨rfl, [], leftShown, rightShown⟩
  | cons char rest =>
      have rightTail := rightShown.tail
      rw [Nat.add_right_comm] at rightTail
      rw [readOne_of_cons leftShown, readOne_of_cons rightShown, Nat.add_right_comm]
      exact ⟨rfl, rest, leftShown.tail, rightTail⟩

theorem shifts_peek {count : Int} (notNegative : 0 ≤ count) :
    Shifts left right offset id (peek count) (peek count) := by
  rintro position ⟨rest, leftShown, rightShown⟩
  rw [peek_of_shows leftShown notNegative, peek_of_shows rightShown notNegative]
  exact ⟨rfl, rest, leftShown, rightShown⟩

theorem shifts_peekOne : Shifts left right offset id peekOne peekOne :=
  (shifts_peek (by omega)).bind fun _ => shifts_pure rfl

theorem shifts_span (accepts : CodePoint → Bool) (limit : Option Nat) :
    Shifts left right offset id (span accepts limit) (span accepts limit) := by
  rintro position ⟨rest, leftShown, rightShown⟩
  have within := length_takeWhile_upTo_le accepts limit rest
  have rightDrop := rightShown.drop within
  rw [Nat.add_right_comm] at rightDrop
  rw [span_of_shows leftShown, span_of_shows rightShown, Nat.add_right_comm]
  exact ⟨rfl, _, leftShown.drop within, rightDrop⟩

/-- A repetition shifts if each of its steps does. -/
theorem shifts_collect {step stepFurther : σ → Reader (Option (α × σ))}
    {consuming : ∀ state, Consuming (step state)}
    {consumingFurther : ∀ state, Consuming (stepFurther state)}
    (shifts : ∀ state, Shifts left right offset id (step state) (stepFurther state))
    (state : σ) :
    Shifts left right offset id (collect step consuming state)
      (collect stepFurther consumingFurther state) := by
  intro position
  -- On the characters left, as every item takes one.
  induction remaining : left.size - position using Nat.strongRecOn
    generalizing state position with
  | ind count inductionHypothesis =>
      intro aligned
      rcases shifts state position aligned with ⟨further, alignedBetween⟩
      rcases run : step state left position with ⟨fault | item?, between, earlier⟩
      · rw [run] at further alignedBetween
        rw [collect_of_error run, collect_of_error further]
        exact ⟨rfl, alignedBetween⟩
      · rw [run] at further alignedBetween
        rcases item? with _ | ⟨item, next⟩
        · rw [collect_of_none run, collect_of_none further]
          exact ⟨rfl, alignedBetween⟩
        · have bounds := consuming state left position _ between earlier run
          rcases inductionHypothesis (left.size - between) (by omega) next between rfl
              alignedBetween with ⟨furtherRest, alignedAfter⟩
          rcases rest : collect step consuming next left between with ⟨result, after, later⟩
          rw [rest] at furtherRest alignedAfter
          rw [collect_of_some run rest, collect_of_some further furtherRest]
          refine ⟨?_, alignedAfter⟩
          apply Run.ext
          · cases result <;> rfl
          · rfl
          · exact List.map_append.symm

theorem shifts_repeatedly {step stepFurther : Reader (Option α)} {consuming : Consuming step}
    {consumingFurther : Consuming stepFurther}
    (shifts : Shifts left right offset id step stepFurther) :
    Shifts left right offset id (repeatedly step consuming)
      (repeatedly stepFurther consumingFurther) :=
  shifts_collect (fun _ => shifts.bind fun _ => shifts_pure rfl) ()

end Reader

end TclWords
