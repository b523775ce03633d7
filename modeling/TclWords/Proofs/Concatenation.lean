import TclWords.Proofs.Bracing
import TclWords.Proofs.Failure
import TclWords.Proofs.Scanning
import TclWords.Proofs.Shift.Word
import TclWords.Proofs.Shown.Sequence

/-!
A line end divides a text into two that are read one after the other.

Owns: `Source.ContinuedBy`, by which a source shows what another one does, and behind it a
line end and more; `Reader.Persists`, by which a reader that succeeds at one of them without
a warning succeeds in the same way at the other; and that the readers of words are of this
kind. So the words of a text that is split without a warning are not touched by the lines
behind it, which are read as if they stood alone.
-/

namespace TclWords

/-- What `left` shows at the position `right` shows too, and behind it a line end and
`more`. -/
def Source.ContinuedBy (left right : Source) (more : Text) (position : Nat) : Prop :=
  ∃ rest, left.Shows position rest ∧ right.Shows position (rest ++ .newline :: more)

namespace Reader

variable {α β : Type} {left right : Source} {more : Text} {start : Nat}

/-- A success of the reader on `left`, if it gives no warning, is its success on `right`. -/
def Persists (left right : Source) (more : Text) (reader : Reader α) : Prop :=
  ∀ position value after, left.ContinuedBy right more position →
    reader left position = ⟨.ok value, after, []⟩ →
      reader right position = ⟨.ok value, after, []⟩ ∧ left.ContinuedBy right more after

theorem persists_pure (value : α) : Persists left right more (pure value : Reader α) := by
  intro position result after continued run
  cases run
  exact ⟨rfl, continued⟩

theorem persists_position : Persists left right more position := by
  rintro here value after ⟨rest, shown, shownOn⟩ run
  rw [position_of_shows shown] at run
  cases run
  exact ⟨position_of_shows shownOn _, rest, shown, shownOn⟩

/-- A sequence that gives no warning has parts that give none. -/
private theorem bind_eq_ok_silent {first : Reader α} {next : α → Reader β} {source : Source}
    {position after : Nat} {value : β}
    (run : (first >>= next) source position = ⟨.ok value, after, []⟩) :
    ∃ middle between, first source position = ⟨.ok middle, between, []⟩ ∧
      next middle source between = ⟨.ok value, after, []⟩ := by
  rcases firstRun : first source position with ⟨fault | middle, between, earlier⟩
  · rw [bind_of_error firstRun] at run
    cases run
  · rw [bind_of_ok firstRun] at run
    have results := congrArg Run.result run
    have positions := congrArg Run.position run
    have silent := List.append_eq_nil_iff.mp (congrArg Run.warnings run)
    rw [silent.1]
    exact ⟨middle, between, rfl, Run.ext results positions silent.2⟩

theorem Persists.bind {first : Reader α} {next : α → Reader β}
    (persists : Persists left right more first)
    (persistsNext : ∀ value, Persists left right more (next value)) :
    Persists left right more (first >>= next) := by
  intro position result after continued run
  rcases bind_eq_ok_silent run with ⟨value, between, firstRun, nextRun⟩
  rcases persists position value between continued firstRun with ⟨firstOn, continuedBetween⟩
  rcases persistsNext value between result after continuedBetween nextRun with
    ⟨nextOn, continuedAfter⟩
  rw [bind_of_ok firstOn, nextOn]
  exact ⟨rfl, continuedAfter⟩

theorem Persists.map {reader : Reader α} (persists : Persists left right more reader)
    (change : α → β) : Persists left right more (change <$> reader) := by
  rw [map_eq_pure_bind]
  exact persists.bind fun value => persists_pure (change value)

theorem Persists.rewindingTo {reader : Reader α} (persists : Persists left right more reader)
    (start : Nat) : Persists left right more (rewindingTo start reader) := by
  intro position value after continued run
  rcases persists position value after continued (rewindingTo_eq_ok_iff.mp run) with
    ⟨further, continuedAfter⟩
  exact ⟨rewindingTo_eq_ok_iff.mpr further, continuedAfter⟩

/-- What every step of a repetition does on both sources, the repetition does. -/
theorem persists_repeatedly {step : Reader (Option α)} {consuming : Consuming step}
    (persists : Persists left right more step) :
    Persists left right more (repeatedly step consuming) := by
  intro position
  -- On the characters left, as every item takes one.
  induction remaining : left.size - position using Nat.strongRecOn generalizing position with
  | ind count inductionHypothesis =>
      intro items after continued run
      rw [repeatedly_eq] at run
      rcases bind_eq_ok_silent run with ⟨item?, between, stepRun, restRun⟩
      rcases persists position item? between continued stepRun with ⟨stepOn, continuedBetween⟩
      rcases item? with _ | item
      · cases restRun
        exact ⟨repeatedly_of_none stepOn, continuedBetween⟩
      · rcases bind_eq_ok_silent restRun with ⟨rest, last, repeatRun, pureRun⟩
        cases pureRun
        have bounds := consuming left position item between [] stepRun
        rcases inductionHypothesis (left.size - between) (by omega) between rfl rest after
          continuedBetween repeatRun with ⟨restOn, continuedAfter⟩
        exact ⟨repeatedly_of_some stepOn restOn, continuedAfter⟩

end Reader

open TclWords.Reader

variable {left right : Source} {more : Text} {start : Nat}

/-! ### The readers of words -/

/-- A source that is continued shows more behind what belongs to the first line too. -/
theorem Source.continuedBy_append {unit rest : Text} {position : Nat} (passed : unit <+: rest)
    (shown : left.Shows position rest) (shownOn : right.Shows position (rest ++ .newline :: more)) :
    left.ContinuedBy right more (position + unit.length) := by
  rcases passed with ⟨later, same⟩
  subst same
  rw [List.append_assoc] at shownOn
  exact ⟨later, shown.append, shownOn.append⟩

/-- No sequence reaches into the line behind it; at the end of the input there is none that
gives no warning. -/
theorem Escape.persists_read (strict : Bool) :
    Persists left right more (Escape.read strict) := by
  rintro position value after ⟨rest, shown, shownOn⟩ run
  rcases rest with _ | ⟨char, rest⟩
  · rw [read_of_nil shown] at run
    cases strict <;> cases run
  by_cases refused : strict = true ∧ Meaningless char
  · rw [refused.1, read_of_meaningless shown refused.2] at run
    cases run
  · rw [read_of_sequence shown refused] at run
    cases run
    rw [List.cons_append] at shownOn
    have readOn := read_of_sequence shownOn refused
    rw [further_append_newline] at readOn
    exact ⟨readOn, Source.continuedBy_append (further_isPrefix char rest) shown.tail shownOn.tail⟩

namespace Quoted

private theorem persists_step (strict : Bool) (start : Nat) :
    Persists left right more (step strict start) := by
  rintro position item? after ⟨rest, shown, shownOn⟩ run
  rcases rest with _ | ⟨char, rest⟩
  · rw [step, bind_of_ok (readOne_of_nil shown), Run.precededBy_nil] at run
    exact absurd run failAt_ne_ok
  have behind : left.ContinuedBy right more (position + 1) := ⟨rest, shown.tail, shownOn.tail⟩
  by_cases isQuote : char = .doubleQuote
  · subst isQuote
    rw [step_of_quote strict shown] at run
    cases run
    exact ⟨step_of_quote strict shownOn, behind⟩
  by_cases isBackslash : char = .backslash
  · subst isBackslash
    rw [step_of_backslash strict shown] at run
    rw [step_of_backslash strict shownOn]
    exact (((Escape.persists_read strict).rewindingTo start).map some) _ _ _ behind run
  · rw [step_of_plain strict shown isQuote isBackslash] at run
    cases run
    exact ⟨step_of_plain strict shownOn isQuote isBackslash, behind⟩

theorem persists_read (strict : Bool) : Persists left right more (read strict) :=
  persists_position.bind fun start => persists_repeatedly (persists_step strict start)

end Quoted

namespace Bare

/-- A bare word that ends with the input ends at the line end too. -/
private theorem persists_step (strict : Bool) (start : Nat) :
    Persists left right more (step strict start) := by
  rintro position item? after ⟨rest, shown, shownOn⟩ run
  by_cases ends : ∀ char ∈ rest.head?, char.isBlank = true
  · have endsOn : ∀ char ∈ (rest ++ .newline :: more).head?, char.isBlank = true := by
      intro char member
      rcases rest with _ | ⟨first, rest⟩
      · cases member
        rfl
      · exact ends char member
    rw [step_of_end strict shown ends] at run
    cases run
    exact ⟨step_of_end strict shownOn endsOn, rest, shown, shownOn⟩
  obtain ⟨char, rest, rfl, notBlank⟩ := Text.begins_word ends
  have behind : left.ContinuedBy right more (position + 1) := ⟨rest, shown.tail, shownOn.tail⟩
  by_cases isBackslash : char = .backslash
  · subst isBackslash
    rw [step_of_backslash strict shown] at run
    rw [step_of_backslash strict shownOn]
    exact (((Escape.persists_read strict).rewindingTo start).map some) _ _ _ behind run
  · rw [step_of_plain strict shown notBlank isBackslash] at run
    cases run
    exact ⟨step_of_plain strict shownOn notBlank isBackslash, behind⟩

theorem persists_read (strict : Bool) : Persists left right more (read strict) :=
  persists_position.bind fun start => persists_repeatedly (persists_step strict start)

end Bare

/-- The brace that closes a word closes it whatever follows. -/
theorem Braced.persists_read : Persists left right more read := by
  rintro position value after ⟨rest, shown, shownOn⟩ run
  rcases read_cases shown with ⟨index, first, readRun⟩ | ⟨_, _, _, _, readRun⟩
  · rw [readRun] at run
    cases run
    have inRest : index + 1 ≤ rest.length := Text.lt_length_of_unescapedAt first.1.1
    have behind := Source.continuedBy_append (List.take_prefix (index + 1) rest) shown shownOn
    rw [List.length_take_of_le inRest, ← Nat.add_assoc] at behind
    refine ⟨?_, behind⟩
    rcases read_cases shownOn with ⟨other, firstOther, onRun⟩ | ⟨never, _⟩
    · rw [onRun, firstOther.unique (first.append _),
        List.take_append_of_le_length (Nat.le_of_succ_le inRest)]
    · exact absurd (first.append _).1 (never index)
  · rw [readRun] at run
    cases run

namespace Word

private theorem persists_readBody (strict : Bool) (started : left.ContinuedBy right more start)
    (char : CodePoint) : Persists left right more (readBody strict start char) := by
  unfold readBody
  split
  · exact Quoted.persists_read strict
  split
  · exact Braced.persists_read
  · intro position value after _ run
    rcases started with ⟨rest, shown, shownOn⟩
    rw [bind_of_ok (seek_of_shows shown position), Run.precededBy_nil] at run
    rw [bind_of_ok (seek_of_shows shownOn position), Run.precededBy_nil]
    exact Bare.persists_read strict start value after ⟨rest, shown, shownOn⟩ run

/-- A word read without a warning is not touched by the lines behind it. -/
theorem read_continued {strict : Bool} {position after : Nat} {word : Word}
    (continued : left.ContinuedBy right more position)
    (run : read strict left position = ⟨.ok (some word), after, []⟩) :
    read strict right position = ⟨.ok (some word), after, []⟩ ∧
      left.ContinuedBy right more after := by
  rcases continued with ⟨rest, shown, shownOn⟩
  cases outcome strict shown with
  | nothing blank valueRun wordRun =>
      rw [wordRun] at run
      cases run
  | @word blanks char later value start stop warnings blank notBlank atStart bodyRun stands
      valueRun wordRun =>
      rw [wordRun] at run
      cases run
      subst atStart
      rw [List.append_assoc, List.cons_append] at shownOn
      have started : left.ContinuedBy right more (position + blanks.length) :=
        ⟨char :: later, shown.append, shownOn.append⟩
      rcases persists_readBody strict started char _ value after
        ⟨later, shown.append.tail, shownOn.append.tail⟩ bodyRun with ⟨bodyOn, continuedAfter⟩
      exact ⟨read_of_word strict shownOn blank notBlank (rewindingTo_eq_ok_iff.mpr bodyOn),
        continuedAfter⟩
  | fault blank notBlank atStart bodyRun valueRun wordRun =>
      rw [wordRun] at run
      cases run

end Word

/-! ### Texts -/

/-- A scan without a fault or a warning ends with the input. Where the source is continued,
the scan goes on behind the line end. -/
theorem scan_continued {strict : Bool} {position : Nat}
    (continued : left.ContinuedBy right more position)
    (succeeds : (scan strict left position).fault? = none)
    (silent : (scan strict left position).warnings = []) :
    left.Shows (scan strict left position).position [] ∧
      scan strict right position =
        (scan strict right ((scan strict left position).position + 1)).behind
          (scan strict left position).words [] := by
  -- On the characters left, as every word takes one.
  induction remaining : left.size - position using Nat.strongRecOn generalizing position with
  | ind count inductionHypothesis =>
      rcases run : Word.read strict left position with ⟨fault | _ | word, after, warnings⟩
      · rw [scan_of_error run] at succeeds
        cases succeeds
      · rcases continued with ⟨rest, shown, shownOn⟩
        rcases Word.read_eq_none shown run with ⟨blank, ended⟩
        rw [scan_of_none run, Scan.behind_nil, ended]
        have blankLine : AllBlank (rest ++ [.newline]) := by
          intro char member
          rcases List.mem_append.mp member with inRest | isNewline
          · exact blank char inRest
          · rw [List.mem_singleton.mp isNewline]
            rfl
        rw [List.append_cons] at shownOn
        rw [← List.append_nil rest] at shown
        refine ⟨shown.append, ?_⟩
        rw [scan_skip strict shownOn blankLine, List.length_append, ← Nat.add_assoc]
        rfl
      · rw [scan_of_word run] at succeeds silent ⊢
        rcases List.append_eq_nil_iff.mp silent with ⟨silentWord, silentRest⟩
        subst silentWord
        rcases Word.read_continued continued run with ⟨runOn, continuedAfter⟩
        have bounds := Word.consuming_read strict left position word after [] run
        rcases inductionHypothesis (left.size - after) (by omega) continuedAfter succeeds
          silentRest rfl with ⟨ended, further⟩
        refine ⟨ended, ?_⟩
        rw [scan_of_word runOn, further, Scan.behind_behind]
        rfl

/-- **Lines are split one after the other.** Behind a text that is split without a warning, a
line end and a second text add the words of the second text and its warnings. If the second
text is at fault then the whole is, in the same way, at the position moved by the first text
and the line end. -/
theorem split_append_newline {strict : Bool} {first : Text} {words : List Text}
    (succeeds : (split strict first).result = .ok words)
    (silent : (split strict first).warnings = []) (second : Text) :
    split strict (first ++ .newline :: second) =
      (split strict second).shift (first.length + 1) (words ++ ·) := by
  rcases scan_of_split succeeds with ⟨noFault, sameWords⟩
  rw [warnings_split] at silent
  have shownWhole : (Source.indexed (first ++ .newline :: second)).Shows 0
      (first ++ .newline :: second) := Source.shows_indexed (Nat.zero_le _)
  have continued : (Source.indexed first).ContinuedBy (.indexed (first ++ .newline :: second))
      second 0 := ⟨first, Source.shows_indexed (Nat.zero_le _), shownWhole⟩
  rcases scan_continued continued noFault silent with ⟨⟨inText, nothingLeft⟩, further⟩
  have atEnd : (scan strict (.indexed first) 0).position = first.length :=
    Nat.le_antisymm inText (List.drop_eq_nil_iff.mp nothingLeft)
  have aligned : (Source.indexed second).Aligned (.indexed (first ++ .newline :: second))
      (first.length + 1) 0 := by
    refine ⟨second, Source.shows_indexed (Nat.zero_le _), ?_⟩
    rw [Nat.zero_add, ← Nat.zero_add first.length]
    exact shownWhole.append.tail
  have behindLine := (scan_shift strict aligned).1
  rw [Nat.zero_add] at behindLine
  rw [split, split, readValues_apply, readValues_apply, further, atEnd, behindLine, sameWords]
  unfold Run.shift Scan.behind Scan.shift
  rcases (scan strict (.indexed second) 0).fault? with _ | fault
  · simp only [Option.map_none, List.map_append, List.map_map, List.nil_append]
    rfl
  · rfl

/-- A text that ends in a hexadecimal sequence, and a second one that begins with a digit and
ends inside of braces: the digit is a word of its own, and the fault is moved. -/
theorem split_append_newline_behind_sequence :
    let first := Text.ofString "a \\x4"
    let second := Text.ofString "1 \x7bb"
    (split false first).result = .ok [Text.ofString "a", [.ofNat 4]] ∧
      (split false first).warnings = [] ∧
      (split false second).result = .error (.unterminatedBrace 3 1) ∧
      (split false (first ++ .newline :: second)).result = .error (.unterminatedBrace 9 1) := by
  intro first second
  have succeeds : (split false first).result = .ok [Text.ofString "a", [.ofNat 4]] := by
    decide +kernel
  have silent : (split false first).warnings = [] := by decide +kernel
  have fails : (split false second).result = .error (.unterminatedBrace 3 1) := by decide +kernel
  refine ⟨succeeds, silent, fails, ?_⟩
  rw [split_append_newline succeeds silent second, Run.shift, fails]
  rfl

end TclWords
