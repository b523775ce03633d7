import TclWords.Proofs.Shown.Word
import TclWords.Proofs.Spelling

/-!
The readers of quoted and of bare words read by the grammar of their contents.

Owns: `Takes`, the steps of such a reader, whose run over contents gives the value that they
stand for; and for both kinds of words what a reader does that comes to the end of the contents.
Nothing behind this module opens `Quoted.read` or `Bare.read`.
-/

namespace TclWords

open TclWords.Reader

variable {strict : Bool} {stops : CodePoint → Bool} {behind contents value : Text}

/-! ### Reading by the grammar -/

/-- The warning of a lenient reader that has come to `stop` behind contents that dangle. -/
def warned (stop : Nat) (contents : Text) : List Warning :=
  if contents.Escapes then [.keptBackslash stop] else []

theorem warned_append {unit contents : Text} (whole : ¬ unit.Escapes) (stop : Nat) :
    warned stop (unit ++ contents) = warned stop contents := by
  simp only [warned, Text.escapes_append whole]

theorem warned_eq_nil {contents : Text} (whole : ¬ contents.Escapes) (stop : Nat) :
    warned stop contents = [] :=
  if_neg whole

/-- The steps of a reader of words that decodes sequences and, at other characters, takes the
ones that do not stop it for themselves. -/
structure Takes (source : Source) (start : Nat) (strict : Bool) (stops : CodePoint → Bool)
    (step : Reader (Option CodePoint)) : Prop where
  sequences : ∀ position rest, source.Shows position (.backslash :: rest) →
    step source position =
      (some <$> rewindingTo start (Escape.read strict)) source (position + 1)
  others : ∀ position char rest, source.Shows position (char :: rest) → char ≠ .backslash →
    stops char = false → step source position = ⟨.ok (some char), position + 1, []⟩

namespace Takes

variable {source : Source} {start position after : Nat} {step : Reader (Option CodePoint)}
  {consuming : Consuming step} {warnings : List Warning}

private theorem step_of_escape (takes : Takes source start strict stops step) {rest : Text}
    (shown : source.Shows position (.backslash :: rest)) {char : CodePoint}
    (run : Escape.read strict source (position + 1) = ⟨.ok char, after, warnings⟩) :
    step source position = ⟨.ok (some char), after, warnings⟩ := by
  rw [takes.sequences position rest shown, map_apply, rewindingTo_eq_ok_iff.mpr run]
  rfl

private theorem repeatedly_of_piece {piece : Text} {char : CodePoint} (whole : ¬ piece.Escapes)
    (stepRun : step source position = ⟨.ok (some char), position + piece.length, []⟩)
    {result : Except Fault Text}
    (later : repeatedly step consuming source (position + piece.length) =
      ⟨result.map (value ++ ·), after,
        warned (position + piece.length + contents.length) contents ++ warnings⟩) :
    repeatedly step consuming source position =
      ⟨result.map (char :: value ++ ·), after,
        warned (position + (piece ++ contents).length) (piece ++ contents) ++ warnings⟩ := by
  rw [repeatedly_of_some stepRun later, warned_append whole, List.length_append, Nat.add_assoc]
  cases result <;> rfl

/-- A reader takes contents for the value that they stand for, and goes on behind them. -/
theorem repeatedly_of_spells (takes : Takes source start strict stops step)
    (spells : Spells strict stops behind contents value)
    (shown : source.Shows position (contents ++ behind)) {result : Except Fault Text}
    (later : repeatedly step consuming source (position + contents.length) =
      ⟨result, after, warnings⟩) :
    repeatedly step consuming source position =
      ⟨result.map (value ++ ·), after,
        warned (position + contents.length) contents ++ warnings⟩ := by
  induction spells generalizing position with
  | nil =>
      rw [warned_eq_nil Text.not_escapes_nil]
      refine Eq.trans later ?_
      cases result <;> rfl
  | @plain char contents value notBackslash goesOn rest inductionHypothesis =>
      have stepRun := takes.others position char _ shown notBackslash goesOn
      have width : position + (char :: contents).length = position + 1 + contents.length := by
        simp only [List.length_cons]
        omega
      rw [width] at later
      exact repeatedly_of_piece (Text.not_escapes_singleton notBackslash) stepRun
        (inductionHypothesis shown.tail later)
  | @sequence char tail contents value meant taken rest inductionHypothesis =>
      rw [List.append_assoc] at shown
      have behindFirst : source.Shows (position + 1) (char :: (tail ++ (contents ++ behind))) :=
        shown.tail
      have sequenceRun := Escape.read_of_sequence behindFirst meant
      have width : position + 1 + 1 + tail.length =
          position + (.backslash :: char :: tail).length := by
        simp only [List.length_cons]
        omega
      rw [taken, width] at sequenceRun
      rw [List.length_append, ← Nat.add_assoc] at later
      exact repeatedly_of_piece (Spells.not_escapes_sequence taken)
        (step_of_escape takes shown sequenceRun) (inductionHypothesis shown.append later)
  | dangling lenient atEnd =>
      subst lenient atEnd
      have keeps := Escape.read_of_nil shown.tail false
      have stepRun := step_of_escape takes shown keeps
      rw [repeatedly_of_some stepRun later]
      cases result <;> rfl

/-- A reader that comes to a sequence that it refuses is at fault. -/
theorem repeatedly_of_refused (takes : Takes source start true stops step)
    (consuming : Consuming step) (opened : source.Stands start) {rest : Text}
    (shown : source.Shows position (contents ++ .backslash :: rest))
    (spells : Spells true stops (.backslash :: rest) contents value)
    (malformed : ∀ char ∈ rest.head?, Escape.Meaningless char) :
    ∃ fault, repeatedly step consuming source position = ⟨.error fault, start, []⟩ := by
  obtain ⟨openContents, openShown⟩ := opened
  have atBackslash := shown.append
  obtain ⟨fault, refuses, ofWord⟩ : ∃ fault,
      Escape.read true source (position + contents.length + 1) =
        ⟨.error fault, position + contents.length + 1, []⟩ ∧ fault.IsReadFault := by
    rcases rest with _ | ⟨char, rest⟩
    · exact ⟨_, Escape.read_of_nil atBackslash.tail true, trivial⟩
    · exact ⟨_, Escape.read_of_meaningless atBackslash.tail (malformed char rfl), trivial⟩
  have stepRun : step source (position + contents.length) = ⟨.error fault, start, []⟩ := by
    rw [takes.sequences _ rest atBackslash, map_apply,
      rewindingTo_of_error openShown refuses ofWord]
    rfl
  have refused : repeatedly step consuming source (position + contents.length) =
      ⟨.error fault, start, []⟩ := collect_of_error (bind_of_error stepRun)
  refine ⟨fault, ?_⟩
  rw [takes.repeatedly_of_spells spells shown refused,
    warned_eq_nil (spells.not_escapes (List.cons_ne_nil _ _))]
  rfl

end Takes

/-! ### Quoted words -/

/-- Ends a quoted word. -/
def CodePoint.isDoubleQuote (char : CodePoint) : Bool :=
  char = .doubleQuote

namespace Quoted

variable {source : Source} {start position : Nat} {rest : Text}

private theorem takes_step (source : Source) (start : Nat) (strict : Bool) :
    Takes source start strict CodePoint.isDoubleQuote (step strict start) where
  sequences := fun _ _ shown => step_of_backslash strict shown
  others := fun _ _ _ shown notBackslash goesOn =>
    step_of_plain strict shown (by simpa [CodePoint.isDoubleQuote] using goesOn) notBackslash

/-- Contents and the quote behind them are read for the value of the contents. -/
theorem read_of_closed (shown : source.Shows position (contents ++ .doubleQuote :: rest))
    (spells : Spells strict CodePoint.isDoubleQuote (.doubleQuote :: rest) contents value) :
    read strict source position = ⟨.ok value, position + contents.length + 1, []⟩ := by
  have closed : repeatedly (step strict position) (consuming_step strict position) source
      (position + contents.length) = ⟨.ok [], position + contents.length + 1, []⟩ :=
    repeatedly_of_none (step_of_quote strict shown.append)
  have run := (takes_step source position strict).repeatedly_of_spells spells shown closed
  rw [warned_eq_nil (spells.not_escapes (List.cons_ne_nil _ _))] at run
  rw [read_of_shows strict shown, run]
  simp [Except.map]

/-- Contents up to the end of the input are unterminated. -/
theorem read_of_unclosed (shown : source.Shows position contents)
    (spells : Spells strict CodePoint.isDoubleQuote [] contents value) :
    read strict source position =
      ⟨.error (.unterminatedQuote position), position,
        warned (position + contents.length) contents⟩ := by
  have opened := shown.stands
  rw [read_of_shows strict shown]
  rw [← List.append_nil contents] at shown
  have ended : repeatedly (step strict position) (consuming_step strict position) source
      (position + contents.length) = ⟨.error (.unterminatedQuote position), position, []⟩ :=
    collect_of_error (bind_of_error (step_of_nil strict opened shown.append))
  have run := (takes_step source position strict).repeatedly_of_spells spells shown ended
  rw [List.append_nil] at run
  exact run

/-- Contents up to a sequence that is refused are at fault. -/
theorem read_of_refused (shown : source.Shows position (contents ++ .backslash :: rest))
    (spells : Spells true CodePoint.isDoubleQuote (.backslash :: rest) contents value)
    (malformed : ∀ char ∈ rest.head?, Escape.Meaningless char) :
    ∃ fault, read true source position = ⟨.error fault, position, []⟩ := by
  rw [read_of_shows true shown]
  exact (takes_step source position true).repeatedly_of_refused (consuming_step true position)
    shown.stands shown spells malformed

end Quoted

/-! ### Bare words -/

namespace Bare

variable {source : Source} {start position : Nat} {rest : Text}

private theorem takes_step (source : Source) (start : Nat) (strict : Bool) :
    Takes source start strict CodePoint.isBlank (step strict start) where
  sequences := fun _ _ shown => step_of_backslash strict shown
  others := fun _ _ _ shown notBackslash goesOn => step_of_plain strict shown goesOn notBackslash

/-- Contents up to a blank, or to the end of the input, are read for their value. -/
theorem read_of_spells (shown : source.Shows position (contents ++ behind))
    (spells : Spells strict CodePoint.isBlank behind contents value)
    (ends : ∀ char ∈ behind.head?, char.isBlank = true) :
    read strict source position =
      ⟨.ok value, position + contents.length,
        warned (position + contents.length) contents⟩ := by
  have ended : repeatedly (step strict position) (consuming_step strict position) source
      (position + contents.length) = ⟨.ok [], position + contents.length, []⟩ :=
    repeatedly_of_none (step_of_end strict shown.append ends)
  have run := (takes_step source position strict).repeatedly_of_spells spells shown ended
  rw [List.append_nil] at run
  rw [read_of_shows strict shown, run]
  simp [Except.map]

/-- Contents up to a sequence that is refused are at fault. -/
theorem read_of_refused (shown : source.Shows position (contents ++ .backslash :: rest))
    (spells : Spells true CodePoint.isBlank (.backslash :: rest) contents value)
    (malformed : ∀ char ∈ rest.head?, Escape.Meaningless char) :
    ∃ fault, read true source position = ⟨.error fault, position, []⟩ := by
  rw [read_of_shows true shown]
  exact (takes_step source position true).repeatedly_of_refused (consuming_step true position)
    shown.stands shown spells malformed

end Bare

end TclWords
