import TclWords.Proofs.Shown.Escape
import TclWords.Word.Read

/-!
Words on what a source shows.

Owns: one step of each reader of words, by the character that is shown, and what
`Word.readValue` and `Word.read` do behind the blanks. A proof about words goes by
these equations and does not open the readers.
-/

namespace TclWords

/-! ### Blanks in front of a word -/

/-- Nothing but characters that separate words. -/
def AllBlank (text : Text) : Prop :=
  ∀ char ∈ text, char.isBlank = true

instance (text : Text) : Decidable (AllBlank text) :=
  inferInstanceAs (Decidable (∀ char ∈ text, char.isBlank = true))

theorem AllBlank.takeWhile_append {blanks rest : Text} (blank : AllBlank blanks)
    (stops : ∀ char ∈ rest.head?, char.isBlank = false) :
    (blanks ++ rest).takeWhile CodePoint.isBlank = blanks := by
  rw [List.takeWhile_append_of_pos blank]
  cases rest with
  | nil => rw [List.takeWhile_nil, List.append_nil]
  | cons char rest =>
      have notBlank := stops char rfl
      rw [List.takeWhile_cons_of_neg (by rw [notBlank]; exact Bool.false_ne_true),
        List.append_nil]

theorem AllBlank.notMem {text : Text} {char : CodePoint} (blank : AllBlank text)
    (notBlank : char.isBlank = false) : char ∉ text := by
  intro member
  have isBlank := blank char member
  rw [notBlank] at isBlank
  cases isBlank

/-- A word begins where neither a blank nor the end is. -/
theorem Text.begins_word {text : Text} (begins : ¬ ∀ char ∈ text.head?, char.isBlank = true) :
    ∃ char later, text = char :: later ∧ char.isBlank = false := by
  cases text with
  | nil => exact absurd (fun char member => by cases member) begins
  | cons char later =>
      refine ⟨char, later, rfl, Bool.eq_false_iff.mpr fun blank => begins ?_⟩
      intro first member
      cases member
      exact blank

/-- A text is blank or has a first character that is not. -/
theorem Text.allBlank_or_word (text : Text) :
    AllBlank text ∨ ∃ blanks char later, text = blanks ++ char :: later ∧
      AllBlank blanks ∧ char.isBlank = false := by
  induction text with
  | nil => exact Or.inl (fun char member => absurd member List.not_mem_nil)
  | cons char text inductionHypothesis =>
      by_cases blank : char.isBlank = true
      · rcases inductionHypothesis with allBlank | ⟨blanks, first, later, same, before, notBlank⟩
        · left
          intro other member
          rcases List.mem_cons.mp member with head | tail
          · rw [head, blank]
          · exact allBlank other tail
        · refine Or.inr ⟨char :: blanks, first, later, ?_, ?_, notBlank⟩
          · rw [same, List.cons_append]
          · intro other member
            rcases List.mem_cons.mp member with head | tail
            · rw [head, blank]
            · exact before other tail
      · refine Or.inr ⟨[], char, text, rfl, ?_, Bool.eq_false_iff.mpr blank⟩
        exact fun other member => absurd member List.not_mem_nil

open TclWords.Reader

variable {source : Source} {position start : Nat} {rest : Text} {char : CodePoint}

/-- From `before` on only blanks are shown up to `after`, where a word begins or nothing is
left. -/
def Source.LandsAt (source : Source) (before after : Nat) : Prop :=
  ∃ blanks rest, source.Shows before (blanks ++ rest) ∧ AllBlank blanks ∧
    (∀ char ∈ rest.head?, char.isBlank = false) ∧ after = before + blanks.length

theorem Source.LandsAt.stands {before after : Nat} (lands : source.LandsAt before after) :
    source.Stands after := by
  obtain ⟨blanks, rest, shown, _, _, atAfter⟩ := lands
  exact atAfter ▸ shown.append.stands

/-- Passing blanks lands where they end. -/
theorem blankSpan_lands (stands : source.Stands position) :
    ∃ blanks after, blankSpan source position = ⟨.ok blanks, after, []⟩ ∧
      source.LandsAt position after := by
  obtain ⟨text, shown⟩ := stands
  obtain ⟨blanks, rest, same, blank, stops⟩ : ∃ blanks rest, text = blanks ++ rest ∧
      AllBlank blanks ∧ ∀ char ∈ rest.head?, char.isBlank = false := by
    rcases Text.allBlank_or_word text with blank | ⟨blanks, char, later, same, blank, notBlank⟩
    · exact ⟨text, [], (List.append_nil text).symm, blank, by simp⟩
    · exact ⟨blanks, char :: later, same, blank, by simpa using notBlank⟩
  have skip := blankSpan_of_shows shown
  rw [same, blank.takeWhile_append stops] at skip
  exact ⟨blanks, _, skip, blanks, rest, same ▸ shown, blank, stops, rfl⟩

/-! ### Steps of the readers -/

namespace Quoted

theorem step_of_nil (strict : Bool) (opened : source.Stands start)
    (shown : source.Shows position []) :
    step strict start source position = ⟨.error (.unterminatedQuote start), start, []⟩ := by
  rcases opened with ⟨contents, openShown⟩
  rw [step, bind_of_ok (readOne_of_nil shown)]
  simp only
  rw [failAt_of_shows openShown]
  rfl

theorem step_of_quote (strict : Bool) (shown : source.Shows position (.doubleQuote :: rest)) :
    step strict start source position = ⟨.ok none, position + 1, []⟩ := by
  rw [step, bind_of_ok (readOne_of_cons shown)]
  rfl

theorem step_of_backslash (strict : Bool)
    (shown : source.Shows position (.backslash :: rest)) :
    step strict start source position =
      (some <$> rewindingTo start (Escape.read strict)) source (position + 1) := by
  rw [step, bind_of_ok (readOne_of_cons shown), Run.precededBy_nil]
  rfl

theorem step_of_plain (strict : Bool) (shown : source.Shows position (char :: rest))
    (notQuote : char ≠ .doubleQuote) (notBackslash : char ≠ .backslash) :
    step strict start source position = ⟨.ok (some char), position + 1, []⟩ := by
  rw [step, bind_of_ok (readOne_of_cons shown)]
  simp only [notQuote, notBackslash, if_false]
  rfl

theorem read_of_shows (strict : Bool) (shown : source.Shows position rest) :
    read strict source position =
      repeatedly (step strict position) (consuming_step strict position) source position :=
  position_bind_of_shows shown position

end Quoted

namespace Bare

theorem step_of_end (strict : Bool) (shown : source.Shows position rest)
    (ends : ∀ char ∈ rest.head?, char.isBlank = true) :
    step strict start source position = ⟨.ok none, position, []⟩ := by
  rw [step, bind_of_ok (peekOne_of_shows shown)]
  cases rest with
  | nil => rfl
  | cons char rest =>
      simp only [List.head?_cons, ends char rfl, if_true]
      rfl

theorem step_of_backslash (strict : Bool)
    (shown : source.Shows position (.backslash :: rest)) :
    step strict start source position =
      (some <$> rewindingTo start (Escape.read strict)) source (position + 1) := by
  rw [step, bind_of_ok (peekOne_of_shows shown)]
  simp only [List.head?_cons]
  rw [if_neg (by decide), bind_of_ok (readOne_of_cons shown), Run.precededBy_nil,
    Run.precededBy_nil]
  rfl

theorem step_of_plain (strict : Bool) (shown : source.Shows position (char :: rest))
    (notBlank : char.isBlank = false) (notBackslash : char ≠ .backslash) :
    step strict start source position = ⟨.ok (some char), position + 1, []⟩ := by
  rw [step, bind_of_ok (peekOne_of_shows shown)]
  simp only [List.head?_cons, notBlank, Bool.false_eq_true, if_false]
  rw [bind_of_ok (readOne_of_cons shown)]
  simp only [notBackslash, if_false]
  rfl

theorem read_of_shows (strict : Bool) (shown : source.Shows position rest) :
    read strict source position =
      repeatedly (step strict position) (consuming_step strict position) source position :=
  position_bind_of_shows shown position

end Bare

namespace Braced

theorem step_of_nil (opened : source.Stands start) (shown : source.Shows position [])
    (inner : Nat) :
    step start inner source position =
      ⟨.error (.unterminatedBrace start (inner + 1)), start, []⟩ := by
  rcases opened with ⟨contents, openShown⟩
  rw [step, bind_of_ok (readOne_of_nil shown)]
  simp only
  rw [failAt_of_shows openShown]
  rfl

theorem step_of_cons (shown : source.Shows position (char :: rest)) (inner : Nat) :
    step start inner source position = pieceAfter inner char source (position + 1) := by
  rw [step, bind_of_ok (readOne_of_cons shown)]
  rfl

/-- A backslash is kept together with the character behind it, unless that ends the
line. -/
theorem step_of_pair (shown : source.Shows position (.backslash :: char :: rest))
    (notNewline : char ≠ .newline) (inner : Nat) :
    step start inner source position =
      ⟨.ok (some ([.backslash, char], inner)), position + 2, []⟩ := by
  rw [step_of_cons shown]
  unfold pieceAfter
  rw [if_pos rfl, afterBackslash, bind_assoc, bind_of_ok (peekOne_of_shows shown.tail)]
  simp only [List.head?_cons, notNewline, if_false]
  rw [bind_assoc, bind_of_ok (readOne_of_cons shown.tail)]
  rfl

/-- A backslash that ends the line is folded with the line end, and with the spaces and tabs
behind it, into one space. -/
theorem step_of_fold (shown : source.Shows position (.backslash :: .newline :: rest))
    (inner : Nat) :
    step start inner source position =
      ⟨.ok (some ([.space], inner)),
        position + 2 + (rest.takeWhile spacesAndTabs.contains).length, []⟩ := by
  rw [step_of_cons shown]
  unfold pieceAfter
  rw [if_pos rfl, afterBackslash, bind_assoc, bind_of_ok (peekOne_of_shows shown.tail)]
  simp only [List.head?_cons, if_true]
  rw [bind_assoc, bind_of_ok (Escape.read_of_newline shown.tail false)]
  rfl

/-- A backslash at the end of the input is kept by itself. -/
theorem step_of_last_backslash (shown : source.Shows position [.backslash]) (inner : Nat) :
    step start inner source position = ⟨.ok (some ([.backslash], inner)), position + 1, []⟩ := by
  rw [step_of_cons shown]
  unfold pieceAfter
  rw [if_pos rfl, afterBackslash, bind_assoc, bind_of_ok (peekOne_of_shows shown.tail)]
  rfl

theorem step_of_open (shown : source.Shows position (.openBrace :: rest)) (inner : Nat) :
    step start inner source position =
      ⟨.ok (some ([.openBrace], inner + 1)), position + 1, []⟩ := by
  rw [step_of_cons shown]
  unfold pieceAfter
  rw [if_neg (by decide), if_pos rfl]
  rfl

theorem step_of_inner_close (shown : source.Shows position (.closeBrace :: rest))
    (inner : Nat) :
    step start (inner + 1) source position =
      ⟨.ok (some ([.closeBrace], inner)), position + 1, []⟩ := by
  rw [step_of_cons shown]
  unfold pieceAfter
  rw [if_neg (by decide), if_neg (by decide), if_pos rfl]
  rfl

theorem step_of_close (shown : source.Shows position (.closeBrace :: rest)) :
    step start 0 source position = ⟨.ok none, position + 1, []⟩ := by
  rw [step_of_cons shown]
  unfold pieceAfter
  rw [if_neg (by decide), if_neg (by decide), if_pos rfl]
  rfl

theorem step_of_plain (shown : source.Shows position (char :: rest))
    (notBackslash : char ≠ .backslash) (notOpen : char ≠ .openBrace)
    (notClose : char ≠ .closeBrace) (inner : Nat) :
    step start inner source position = ⟨.ok (some ([char], inner)), position + 1, []⟩ := by
  rw [step_of_cons shown]
  unfold pieceAfter
  rw [if_neg notBackslash, if_neg notOpen, if_neg notClose]
  rfl

theorem read_of_shows (shown : source.Shows position rest) :
    read source position =
      (List.flatten <$> collect (step position) (consuming_step position) 0) source
        position := by
  rw [read, position_bind_of_shows shown]
  rfl

end Braced

/-! ### The word behind the blanks -/

namespace Word

variable {blanks later : Text} (strict : Bool)

/-- A word without a delimiter is read from its first character on. -/
theorem readBody_of_bare (shown : source.Shows start rest)
    (notQuote : char ≠ .doubleQuote) (notBrace : char ≠ .openBrace) :
    readBody strict start char source (start + 1) = Bare.read strict source start := by
  rw [readBody, if_neg notQuote, if_neg notBrace, bind_of_ok (seek_of_shows shown _),
    Run.precededBy_nil]

private theorem blankSpan_of_allBlank (shown : source.Shows position rest)
    (blank : AllBlank rest) :
    blankSpan source position = ⟨.ok rest, position + rest.length, []⟩ := by
  have taken : (rest ++ []).takeWhile CodePoint.isBlank = rest :=
    blank.takeWhile_append (by intro char member; cases member)
  rw [List.append_nil] at taken
  rw [blankSpan_of_shows shown, taken]

theorem readValue_of_blank (shown : source.Shows position rest) (blank : AllBlank rest) :
    readValue strict source position = ⟨.ok none, position + rest.length, []⟩ := by
  have ended : source.Shows (position + rest.length) [] := by
    rw [← List.append_nil rest] at shown
    exact shown.append
  rw [readValue, bind_of_ok (blankSpan_of_allBlank shown blank), Run.precededBy_nil,
    position_bind_of_shows shown, bind_of_ok (readOne_of_nil ended)]
  rfl

/-- Behind the blanks the rest of the word is read, and at fault the position is back
at its first character. -/
theorem readValue_of_word (shown : source.Shows position (blanks ++ char :: later))
    (blank : AllBlank blanks) (notBlank : char.isBlank = false) {run : Run Text}
    (bodyRun : rewindingTo (position + blanks.length)
      (readBody strict (position + blanks.length) char) source
        (position + blanks.length + 1) = run) :
    readValue strict source position =
      ⟨run.result.map some, run.position, run.warnings⟩ := by
  have skip := blankSpan_of_shows shown
  rw [blank.takeWhile_append (by intro first member; cases member; exact notBlank)] at skip
  rw [readValue, bind_of_ok skip, Run.precededBy_nil, position_bind_of_shows shown,
    bind_of_ok (readOne_of_cons shown.append), Run.precededBy_nil]
  simp only
  rw [map_apply, bodyRun]

theorem read_of_blank (shown : source.Shows position rest) (blank : AllBlank rest) :
    read strict source position = ⟨.ok none, position + rest.length, []⟩ := by
  have ended : source.Shows (position + rest.length) [] := by
    rw [← List.append_nil rest] at shown
    exact shown.append
  have noWord := readValue_of_blank strict ended
    (fun char member => absurd member List.not_mem_nil)
  rw [read, bind_of_ok (blankSpan_of_allBlank shown blank), Run.precededBy_nil,
    position_bind_of_shows shown, bind_of_ok (peek_one_of_shows ended), Run.precededBy_nil,
    bind_of_ok noWord]
  rfl

/-- The word is the one whose value `readValue` gives, from its first character to
where the reader stops. -/
theorem read_of_word (shown : source.Shows position (blanks ++ char :: later))
    (blank : AllBlank blanks) (notBlank : char.isBlank = false) {run : Run Text}
    (bodyRun : rewindingTo (position + blanks.length)
      (readBody strict (position + blanks.length) char) source
        (position + blanks.length + 1) = run) :
    read strict source position =
      ⟨run.result.map fun value =>
          some ⟨.ofOpening [char], value, position + blanks.length, run.position⟩,
        run.position, run.warnings⟩ := by
  have skip := blankSpan_of_shows shown
  rw [blank.takeWhile_append (by intro first member; cases member; exact notBlank)] at skip
  have atStart : source.Shows (position + blanks.length) ([] ++ char :: later) :=
    shown.append
  have valueRun := readValue_of_word strict atStart
    (fun char member => absurd member List.not_mem_nil) notBlank bodyRun
  rw [read, bind_of_ok skip, Run.precededBy_nil, position_bind_of_shows shown,
    bind_of_ok (peek_one_of_shows atStart), Run.precededBy_nil]
  rcases run with ⟨fault | value, after, warnings⟩
  · rw [bind_of_error valueRun]
    rfl
  · rw [bind_of_ok valueRun]
    simp only
    rw [bind_of_ok (position_of_shows shown after)]
    exact Run.ext rfl rfl (List.append_nil warnings)

end Word

end TclWords
