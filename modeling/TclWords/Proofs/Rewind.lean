import TclWords.Proofs.Shown.Word

/-!
Readers at fault go back.

Owns: `Reader.Returns`, by which a reader either succeeds or has a word at fault and
is back at a position told beforehand, and that the readers of words and of backslash
sequences are of this kind on every source of characters.
-/

namespace TclWords

namespace Reader

variable {α β σ : Type} {source : Source} {home : Nat → Nat} {start : Nat}

/-- Wherever the source stands, the reader succeeds and leaves it standing, or a word
is at fault and the reader is back at `home`. -/
def Returns (source : Source) (home : Nat → Nat) (reader : Reader α) : Prop :=
  ∀ position, source.Stands position →
    (∃ value after warnings,
      reader source position = ⟨.ok value, after, warnings⟩ ∧ source.Stands after) ∨
    ∃ fault warnings,
      reader source position = ⟨.error fault, home position, warnings⟩ ∧ fault.IsReadFault

theorem Returns.stands_of_ok {reader : Reader α} (returns : Returns source home reader)
    {position after : Nat} {value : α} {warnings : List Warning}
    (stands : source.Stands position)
    (run : reader source position = ⟨.ok value, after, warnings⟩) : source.Stands after := by
  rcases returns position stands with ⟨_, _, _, okRun, standsAfter⟩ | ⟨_, _, errorRun, _⟩
  · rw [okRun] at run
    cases run
    exact standsAfter
  · rw [errorRun] at run
    cases run

theorem returns_pure (value : α) : Returns source home (pure value : Reader α) :=
  fun position stands => Or.inl ⟨value, position, [], rfl, stands⟩

theorem Returns.bind {first : Reader α} {next : α → Reader β}
    (returns : Returns source (fun _ => start) first)
    (returnsNext : ∀ value, Returns source (fun _ => start) (next value)) :
    Returns source (fun _ => start) (first >>= next) := by
  intro position stands
  rcases returns position stands with
    ⟨value, between, earlier, firstRun, standsBetween⟩ | ⟨fault, earlier, firstRun, ofWord⟩
  · rw [bind_of_ok firstRun]
    rcases returnsNext value between standsBetween with
      ⟨result, after, later, nextRun, standsAfter⟩ | ⟨fault, later, nextRun, ofWord⟩
    · exact Or.inl ⟨result, after, earlier ++ later, by rw [nextRun]; rfl, standsAfter⟩
    · exact Or.inr ⟨fault, earlier ++ later, by rw [nextRun]; rfl, ofWord⟩
  · exact Or.inr ⟨fault, earlier, bind_of_error firstRun, ofWord⟩

theorem Returns.map {reader : Reader α} (returns : Returns source home reader)
    (change : α → β) : Returns source home (change <$> reader) := by
  intro position stands
  rw [map_apply]
  rcases returns position stands with
    ⟨value, after, warnings, run, standsAfter⟩ | ⟨fault, warnings, run, ofWord⟩
  · exact Or.inl ⟨change value, after, warnings, by rw [run]; rfl, standsAfter⟩
  · exact Or.inr ⟨fault, warnings, by rw [run]; rfl, ofWord⟩

/-- A reader that goes back to where it started. -/
theorem returns_position_bind {next : Nat → Reader α}
    (returnsNext : ∀ start, source.Stands start →
      Returns source (fun _ => start) (next start)) :
    Returns source id (position >>= next) := by
  rintro here ⟨rest, shown⟩
  rw [position_bind_of_shows shown]
  exact returnsNext here shown.stands here shown.stands

theorem returns_readOne : Returns source home readOne := by
  rintro position ⟨rest, shown⟩
  left
  cases rest with
  | nil => exact ⟨none, position, [], readOne_of_nil shown, shown.stands⟩
  | cons char rest =>
      exact ⟨some char, position + 1, [], readOne_of_cons shown, shown.tail.stands⟩

theorem returns_peekOne : Returns source home peekOne := by
  rintro position ⟨rest, shown⟩
  exact Or.inl ⟨rest.head?, position, [], peekOne_of_shows shown, shown.stands⟩

theorem returns_span (accepts : CodePoint → Bool) (limit : Option Nat) :
    Returns source home (span accepts limit) := by
  rintro position ⟨rest, shown⟩
  exact Or.inl ⟨_, _, [], span_of_shows shown _ _, stands_behind_span shown _ _⟩

theorem returns_failAt (stands : source.Stands start) {fault : Fault}
    (ofWord : fault.IsReadFault) :
    Returns source (fun _ => start) (failAt start fault : Reader α) := by
  rcases stands with ⟨rest, shown⟩
  intro position _
  exact Or.inr ⟨fault, [], failAt_of_shows shown fault position, ofWord⟩

/-- Rewinding replaces the position that a reader goes back to. -/
theorem Returns.rewindingTo {reader : Reader α} (returns : Returns source home reader)
    (stands : source.Stands start) :
    Returns source (fun _ => start) (rewindingTo start reader) := by
  rcases stands with ⟨rest, shown⟩
  intro position standsHere
  rcases returns position standsHere with
    ⟨value, after, warnings, run, standsAfter⟩ | ⟨fault, warnings, run, ofWord⟩
  · exact Or.inl ⟨value, after, warnings, rewindingTo_eq_ok_iff.mpr run, standsAfter⟩
  · exact Or.inr ⟨fault, warnings, rewindingTo_of_error shown run ofWord, ofWord⟩

/-- What every step of a repetition goes back to, the repetition goes back to. -/
theorem returns_collect {step : σ → Reader (Option (α × σ))}
    {consuming : ∀ state, Consuming (step state)}
    (returns : ∀ state, Returns source (fun _ => start) (step state)) (state : σ) :
    Returns source (fun _ => start) (collect step consuming state) := by
  intro position
  -- On the characters left, as every item takes one.
  induction remaining : source.size - position using Nat.strongRecOn
    generalizing state position with
  | ind count inductionHypothesis =>
      intro stands
      rcases returns state position stands with
        ⟨item?, between, earlier, stepRun, standsBetween⟩ | ⟨fault, earlier, stepRun, ofWord⟩
      · rcases item? with _ | ⟨item, next⟩
        · exact Or.inl ⟨[], between, earlier, collect_of_none stepRun, standsBetween⟩
        · have bounds := consuming state source position _ between earlier stepRun
          rcases inductionHypothesis (source.size - between) (by omega) next between rfl
              standsBetween with
            ⟨items, after, later, restRun, standsAfter⟩ | ⟨fault, later, restRun, ofWord⟩
          · exact Or.inl ⟨item :: items, after, earlier ++ later,
              collect_of_some stepRun restRun, standsAfter⟩
          · exact Or.inr ⟨fault, earlier ++ later, collect_of_some stepRun restRun, ofWord⟩
      · exact Or.inr ⟨fault, earlier, collect_of_error stepRun, ofWord⟩

theorem returns_repeatedly {step : Reader (Option α)} {consuming : Consuming step}
    (returns : Returns source (fun _ => start) step) :
    Returns source (fun _ => start) (repeatedly step consuming) :=
  returns_collect (fun _ => returns.bind fun _ => returns_pure _) ()

end Reader

open TclWords.Reader

variable {source : Source} {start : Nat}

/-! ### The readers of words -/

namespace Escape

private theorem returns_octal {home : Nat → Nat} {first : CodePoint}
    (isDigit : Digit.isOctal first = true) : Returns source home (octal [first]) := by
  rintro position ⟨rest, shown⟩
  exact Or.inl ⟨_, _, [], octal_of_shows isDigit shown, stands_behind_span shown _ (some 2)⟩

private theorem returns_hexadecimal {home : Nat → Nat} : Returns source home hexadecimal := by
  rintro position ⟨rest, shown⟩
  exact Or.inl ⟨_, _, [], hexadecimal_of_shows shown rfl, stands_behind_span shown _ none⟩

private theorem returns_unicode {home : Nat → Nat} : Returns source home unicode := by
  rintro position ⟨rest, shown⟩
  exact Or.inl ⟨_, _, [], unicode_of_shows shown rfl, stands_behind_span shown _ (some 4)⟩

private theorem returns_readAfter (strict : Bool) (stands : source.Stands start)
    (char : CodePoint) : Returns source (fun _ => start) (readAfter strict start char) := by
  unfold readAfter
  split
  · exact returns_pure _
  split
  · exact (returns_span _ _).bind fun _ => returns_pure _
  split
  · exact returns_pure _
  split
  · next isDigit => exact returns_octal isDigit
  split
  · exact returns_hexadecimal.bind fun _ => returns_pure _
  split
  · exact returns_unicode.bind fun _ => returns_pure _
  split
  · exact returns_failAt stands trivial
  · exact returns_pure _

theorem returns_read (strict : Bool) : Returns source id (read strict) := by
  rintro position ⟨rest, shown⟩
  cases rest with
  | nil =>
      rw [read_of_nil shown]
      cases strict with
      | true => exact Or.inr ⟨.danglingBackslash position, [], rfl, trivial⟩
      | false => exact Or.inl ⟨.backslash, position, _, rfl, shown.stands⟩
  | cons char rest =>
      rw [read_of_cons shown]
      exact returns_readAfter strict shown.stands char _ shown.tail.stands

end Escape

namespace Quoted

private theorem returns_step (strict : Bool) (stands : source.Stands start) :
    Returns source (fun _ => start) (step strict start) := by
  apply returns_readOne.bind
  intro char?
  cases char? with
  | none => exact returns_failAt stands trivial
  | some char =>
      simp only
      split
      · exact returns_pure _
      split
      · exact ((Escape.returns_read strict).rewindingTo stands).map some
      · exact returns_pure _

theorem returns_read (strict : Bool) : Returns source id (read strict) :=
  returns_position_bind fun _ stands => returns_repeatedly (returns_step strict stands)

end Quoted

namespace Bare

theorem returns_step (strict : Bool) (stands : source.Stands start) :
    Returns source (fun _ => start) (step strict start) := by
  apply returns_peekOne.bind
  intro next?
  cases next? with
  | none => exact returns_pure _
  | some next =>
      simp only
      split
      · exact returns_pure _
      · apply returns_readOne.bind
        intro char?
        cases char? with
        | none => exact returns_pure _
        | some char =>
            simp only
            split
            · exact ((Escape.returns_read strict).rewindingTo stands).map some
            · exact returns_pure _

theorem returns_read (strict : Bool) : Returns source id (read strict) :=
  returns_position_bind fun _ stands => returns_repeatedly (returns_step strict stands)

end Bare

namespace Braced

private theorem returns_afterBackslash : Returns source (fun _ => start) afterBackslash := by
  rintro position ⟨rest, shown⟩
  left
  rw [afterBackslash, bind_of_ok (peekOne_of_shows shown)]
  cases rest with
  | nil => exact ⟨[.backslash], position, [], rfl, shown.stands⟩
  | cons char rest =>
      by_cases isNewline : char = .newline
      · subst isNewline
        simp only [List.head?_cons, if_true]
        rw [bind_of_ok (Escape.read_of_newline shown false)]
        exact ⟨[.space], _, [], rfl, stands_behind_span shown.tail _ none⟩
      · simp only [List.head?_cons, isNewline, if_false]
        rw [bind_of_ok (readOne_of_cons shown)]
        exact ⟨[.backslash, char], position + 1, [], rfl, shown.tail.stands⟩

private theorem returns_pieceAfter (inner : Nat) (char : CodePoint) :
    Returns source (fun _ => start) (pieceAfter inner char) := by
  unfold pieceAfter
  split
  · exact returns_afterBackslash.bind fun _ => returns_pure _
  split
  · exact returns_pure _
  split
  · cases inner with
    | zero => exact returns_pure _
    | succ inner => exact returns_pure _
  · exact returns_pure _

private theorem returns_step (stands : source.Stands start) (inner : Nat) :
    Returns source (fun _ => start) (step start inner) := by
  apply returns_readOne.bind
  intro char?
  cases char? with
  | none => exact returns_failAt stands trivial
  | some char => exact returns_pieceAfter inner char

theorem returns_read : Returns source id read :=
  returns_position_bind fun _ stands =>
    (returns_collect (returns_step stands) 0).bind fun _ => returns_pure _

end Braced

namespace Word

theorem returns_body (strict : Bool) (stands : source.Stands start) (char : CodePoint) :
    Returns source (fun _ => start) (rewindingTo start (readBody strict start char)) := by
  unfold readBody
  split
  · exact (Quoted.returns_read strict).rewindingTo stands
  split
  · exact Braced.returns_read.rewindingTo stands
  · have fromStart : Returns source (fun _ => start)
        (seek start >>= fun _ => Bare.read strict) := by
      rcases stands with ⟨contents, shown⟩
      intro position _
      rw [bind_of_ok (seek_of_shows shown position), Run.precededBy_nil]
      exact Bare.returns_read strict start shown.stands
    exact fromStart.rewindingTo stands

/-- What reading a word comes to, by the `rest` that is shown: nothing behind blanks, or a
word that begins with the first character that is no blank and is read or at fault. -/
inductive Outcome (strict : Bool) (source : Source) (position : Nat) : Text → Prop where
  | nothing {rest : Text} (blank : AllBlank rest)
      (valueRun : readValue strict source position = ⟨.ok none, position + rest.length, []⟩)
      (wordRun : read strict source position = ⟨.ok none, position + rest.length, []⟩) :
      Outcome strict source position rest
  | word {blanks : Text} {char : CodePoint} {later value : Text} {start stop : Nat}
      {warnings : List Warning} (blank : AllBlank blanks) (notBlank : char.isBlank = false)
      (atStart : start = position + blanks.length)
      (bodyRun : readBody strict start char source (start + 1) = ⟨.ok value, stop, warnings⟩)
      (stands : source.Stands stop)
      (valueRun : readValue strict source position = ⟨.ok (some value), stop, warnings⟩)
      (wordRun : read strict source position =
        ⟨.ok (some ⟨.ofOpening [char], value, start, stop⟩), stop, warnings⟩) :
      Outcome strict source position (blanks ++ char :: later)
  | fault {blanks : Text} {char : CodePoint} {later : Text} {start : Nat} {fault : Fault}
      {warnings : List Warning} (blank : AllBlank blanks) (notBlank : char.isBlank = false)
      (atStart : start = position + blanks.length)
      (bodyRun : rewindingTo start (readBody strict start char) source (start + 1) =
        ⟨.error fault, start, warnings⟩)
      (valueRun : readValue strict source position = ⟨.error fault, start, warnings⟩)
      (wordRun : read strict source position = ⟨.error fault, start, warnings⟩) :
      Outcome strict source position (blanks ++ char :: later)

theorem outcome (strict : Bool) {position : Nat} {rest : Text}
    (shown : source.Shows position rest) : Outcome strict source position rest := by
  rcases Text.allBlank_or_word rest with blank | ⟨blanks, char, later, same, blank, notBlank⟩
  · exact .nothing blank (readValue_of_blank strict shown blank)
      (read_of_blank strict shown blank)
  · subst same
    have atStart := shown.append
    rcases returns_body strict atStart.stands char _ atStart.tail.stands with
      ⟨value, stop, warnings, bodyRun, stands⟩ | ⟨fault, warnings, bodyRun, _⟩
    · exact .word blank notBlank rfl (rewindingTo_eq_ok_iff.mp bodyRun) stands
        (readValue_of_word strict shown blank notBlank bodyRun)
        (read_of_word strict shown blank notBlank bodyRun)
    · exact .fault blank notBlank rfl bodyRun
        (readValue_of_word strict shown blank notBlank bodyRun)
        (read_of_word strict shown blank notBlank bodyRun)

/-- The word that was read ends where its reader stops, and there the source can stand. -/
theorem read_stops {strict : Bool} {position after : Nat} {word : Word}
    {warnings : List Warning} (stands : source.Stands position)
    (run : read strict source position = ⟨.ok (some word), after, warnings⟩) :
    word.stop = after ∧ source.Stands after := by
  rcases stands with ⟨rest, shown⟩
  cases outcome strict shown with
  | nothing blank valueRun wordRun =>
      rw [wordRun] at run
      cases run
  | word blank notBlank atStart bodyRun standsAfter valueRun wordRun =>
      rw [wordRun] at run
      cases run
      exact ⟨rfl, standsAfter⟩
  | fault blank notBlank atStart bodyRun valueRun wordRun =>
      rw [wordRun] at run
      cases run

end Word

end TclWords
