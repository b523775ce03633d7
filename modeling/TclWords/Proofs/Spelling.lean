import TclWords.Proofs.Shown.Sequence

/-!
The contents of words in which backslash sequences are decoded.

Owns: `Spells`, the grammar of such contents, by which each piece of them is a character that
stands for itself or a whole backslash sequence; and that every text begins with contents, which
end where the text does, at a character that stops the word, or at a sequence that is refused.

A sequence takes as much as it can of all that is shown. So the grammar speaks of contents in
front of what stands behind them, and `Spells.in_front_of` says when something else may stand
there.
-/

namespace TclWords

open TclWords.Reader

/-! ### Continued lines -/

namespace Text

/-- The text ends in an escaped line end, with nothing but spaces and tabs behind it. -/
def EndsContinued (text : Text) : Prop :=
  ∃ before blanks : Text, text = before ++ .newline :: blanks ∧ before.Escapes ∧
    ∀ char ∈ blanks, char ∈ spacesAndTabs

variable {unit rest : Text} {char : CodePoint}

theorem endsContinued_iff_exists_index {text : Text} :
    text.EndsContinued ↔ ∃ index < text.length, text[index]? = some .newline ∧
      Escapes (text.take index) ∧ ∀ char ∈ text.drop (index + 1), char ∈ spacesAndTabs := by
  constructor
  · rintro ⟨before, blanks, rfl, escapes, blank⟩
    exact ⟨before.length, by simp, by simp, by simpa using escapes, by simpa using blank⟩
  · rintro ⟨index, inText, found, escapes, blank⟩
    refine ⟨text.take index, text.drop (index + 1), ?_, escapes, blank⟩
    obtain ⟨_, same⟩ := List.getElem?_eq_some_iff.mp found
    rw [← same, ← List.drop_eq_getElem_cons inText, List.take_append_drop]

instance (text : Text) : Decidable text.EndsContinued :=
  decidable_of_iff _ endsContinued_iff_exists_index.symm

theorem endsContinued_append (whole : ¬ unit.Escapes) :
    EndsContinued (unit ++ rest) ↔
      rest.EndsContinued ∨ unit.EndsContinued ∧ ∀ char ∈ rest, char ∈ spacesAndTabs := by
  constructor
  · rintro ⟨before, blanks, same, escapes, blank⟩
    rcases List.append_eq_append_iff.mp same with ⟨middle, atMiddle, rfl⟩ | ⟨middle, rfl, later⟩
    · rw [atMiddle, escapes_append whole] at escapes
      exact Or.inl ⟨middle, blanks, rfl, escapes, blank⟩
    · rcases middle with _ | ⟨first, middle⟩
      · rw [List.append_nil] at whole
        exact absurd escapes whole
      · obtain ⟨rfl, rfl⟩ := List.cons.inj later
        refine Or.inr ⟨⟨before, middle, rfl, escapes, ?_⟩, ?_⟩
        · exact fun char member => blank char (List.mem_append_left rest member)
        · exact fun char member => blank char (List.mem_append_right middle member)
  · rintro (⟨before, blanks, rfl, escapes, blank⟩ | ⟨⟨before, blanks, rfl, escapes, blank⟩, behind⟩)
    · refine ⟨unit ++ before, blanks, (List.append_assoc ..).symm, ?_, blank⟩
      rwa [escapes_append whole]
    · refine ⟨before, blanks ++ rest, List.append_assoc .., escapes, fun char member => ?_⟩
      exact (List.mem_append.mp member).elim (blank char) (behind char)

theorem not_endsContinued_nil : ¬ EndsContinued [] := by
  decide

theorem not_endsContinued_singleton (char : CodePoint) : ¬ EndsContinued [char] := by
  rintro ⟨before, blanks, same, escapes, _⟩
  rcases before with _ | ⟨first, before⟩
  · exact not_escapes_nil escapes
  · simp at same

end Text

/-! ### What a sequence takes -/

namespace Escape

variable {char : CodePoint} {taken rest : Text}

private theorem takeWhile_upTo_append_eq_iff {accepts : CodePoint → Bool} {limit : Option Nat} :
    (upTo limit (taken ++ rest)).takeWhile accepts = taken ↔
      (∀ char ∈ taken, accepts char = true) ∧ (∀ count ∈ limit, taken.length ≤ count) ∧
        ∀ next ∈ rest.head?, accepts next = true → limit = some taken.length := by
  induction taken generalizing limit with
  | nil => rcases limit with _ | _ | count <;> cases rest <;> simp [upTo, List.takeWhile_cons]
  | cons char taken inductionHypothesis =>
      by_cases accepted : accepts char = true
      · rcases limit with _ | _ | count
        · simpa [upTo, accepted] using @inductionHypothesis none
        · simp [upTo]
        · simpa [upTo, accepted] using @inductionHypothesis (some count)
      · rcases limit with _ | _ | count <;> simp [upTo, accepted]

/-- What a sequence takes may all follow its first character, and behind it stands something
that may not, unless the limit is reached. -/
theorem further_append_eq_iff :
    further char (taken ++ rest) = taken ↔
      (∀ other ∈ taken, (followers char).1 other = true) ∧
        (∀ count ∈ (followers char).2, taken.length ≤ count) ∧
          ∀ next ∈ rest.head?, (followers char).1 next = true →
            (followers char).2 = some taken.length :=
  takeWhile_upTo_append_eq_iff

/-- Only a line end is followed by spaces and tabs. -/
theorem eq_newline_of_follows {other : CodePoint} (follows : (followers char).1 other = true)
    (blank : other ∈ spacesAndTabs) : char = .newline := by
  have noDigit : ∀ other ∈ spacesAndTabs,
      Digit.isOctal other = false ∧ Digit.isHexadecimal other = false := by decide
  obtain ⟨notOctal, notHexadecimal⟩ := noDigit other blank
  refine Decidable.byContradiction fun notNewline => ?_
  rw [followers, if_neg notNewline] at follows
  split at follows
  · simp [notOctal] at follows
  split at follows
  · simp [notHexadecimal] at follows
  split at follows
  · simp [notHexadecimal] at follows
  · simp at follows

/-- A sequence ends in a continued line only if it is one. -/
theorem eq_newline_of_endsContinued
    (continued : Text.EndsContinued (.backslash :: char :: further char rest)) :
    char = .newline := by
  obtain ⟨before, blanks, same, escapes, _⟩ := continued
  rcases before with _ | ⟨first, _ | ⟨second, before⟩⟩
  · exact absurd escapes Text.not_escapes_nil
  · simp only [List.cons_append, List.nil_append, List.cons.injEq] at same
    exact same.2.1
  · simp only [List.cons_append, List.cons.injEq] at same
    have inTail : .newline ∈ further char rest := by simp [same.2.2]
    exact absurd inTail (notMem_further (by decide) (by decide) rest)

theorem endsContinued_of_newline (rest : Text) :
    Text.EndsContinued (.backslash :: .newline :: further .newline rest) := by
  refine ⟨[.backslash], _, rfl, by decide, fun other member => ?_⟩
  exact List.contains_iff_mem.mp (List.all_eq_true.mp List.all_takeWhile other member)

end Escape

/-! ### The grammar -/

/-- In front of `behind`, the contents stand for the value. They are made of characters that
do not stop the word and of backslash sequences, each of which takes as much as it can. A
lenient reader takes any character behind a backslash, and a backslash that ends the input. -/
inductive Spells (strict : Bool) (stops : CodePoint → Bool) (behind : Text) :
    Text → Text → Prop where
  | nil : Spells strict stops behind [] []
  | plain {char : CodePoint} {contents value : Text} (notBackslash : char ≠ .backslash)
      (goesOn : stops char = false) (rest : Spells strict stops behind contents value) :
      Spells strict stops behind (char :: contents) (char :: value)
  | sequence {char : CodePoint} {tail contents value : Text}
      (meant : ¬ (strict = true ∧ Escape.Meaningless char))
      (taken : Escape.further char (tail ++ (contents ++ behind)) = tail)
      (rest : Spells strict stops behind contents value) :
      Spells strict stops behind (.backslash :: char :: tail ++ contents)
        (Escape.decoded char tail :: value)
  | dangling (lenient : strict = false) (atEnd : behind = []) :
      Spells strict stops behind [.backslash] [.backslash]

/-- What contents end in front of. -/
inductive Halts (strict : Bool) (stops : CodePoint → Bool) : Text → Prop where
  | ended : Halts strict stops []
  | stopped {char : CodePoint} {later : Text} (notBackslash : char ≠ .backslash)
      (stop : stops char = true) : Halts strict stops (char :: later)
  | refused {later : Text} (isStrict : strict = true)
      (malformed : ∀ char ∈ later.head?, Escape.Meaningless char) :
      Halts strict stops (.backslash :: later)

variable {strict : Bool} {stops : CodePoint → Bool} {behind contents value : Text}

/-- Contents take nothing of the text that stands behind them: they do not escape it, no
number goes on in it, and no continued line does. -/
structure LeavesAlone (contents behind : Text) : Prop where
  dangles : contents.Escapes → behind = []
  symbol : ∀ next ∈ behind.head?, next.isAlphanumeric = false
  unswallowed : ∀ next ∈ behind.head?, next ∈ spacesAndTabs → ¬ contents.EndsContinued

theorem LeavesAlone.of_append {unit contents behind : Text} (whole : ¬ unit.Escapes)
    (alone : LeavesAlone (unit ++ contents) behind) : LeavesAlone contents behind where
  dangles := fun escapes => alone.dangles ((Text.escapes_append whole).mpr escapes)
  symbol := alone.symbol
  unswallowed := fun next isNext blank continued => alone.unswallowed next isNext blank
    ((Text.endsContinued_append whole).mpr (Or.inl continued))

/-- Every text begins with contents, as far as they go. -/
theorem exists_spells (strict : Bool) (stops : CodePoint → Bool) (text : Text) :
    ∃ contents behind value, text = contents ++ behind ∧
      Spells strict stops behind contents value ∧ Halts strict stops behind := by
  -- On the length of the text, as a sequence takes any number of characters.
  induction remaining : text.length using Nat.strongRecOn generalizing text with
  | ind count inductionHypothesis =>
      rcases text with _ | ⟨char, rest⟩
      · exact ⟨[], [], [], rfl, .nil, .ended⟩
      by_cases isBackslash : char = .backslash
      · subst isBackslash
        rcases rest with _ | ⟨first, later⟩
        · cases strict with
          | true => exact ⟨[], _, [], rfl, .nil, .refused rfl (by simp)⟩
          | false => exact ⟨[.backslash], [], _, rfl, .dangling rfl rfl, .ended⟩
        by_cases refused : strict = true ∧ Escape.Meaningless first
        · exact ⟨[], _, [], rfl, .nil, .refused refused.1 (by simpa using refused.2)⟩
        obtain ⟨beyond, same⟩ := Escape.further_isPrefix first later
        generalize taken : Escape.further first later = tail at same
        subst same
        obtain ⟨contents, behind, value, rfl, spells, halts⟩ :=
          inductionHypothesis beyond.length (by simp at remaining; omega) beyond rfl
        refine ⟨.backslash :: first :: tail ++ contents, behind, _, ?_,
          .sequence refused taken spells, halts⟩
        simp
      by_cases stop : stops char = true
      · exact ⟨[], _, [], rfl, .nil, .stopped isBackslash stop⟩
      · obtain ⟨contents, behind, value, rfl, spells, halts⟩ :=
          inductionHypothesis rest.length (by simp at remaining; omega) rest rfl
        exact ⟨char :: contents, behind, _, rfl, .plain isBackslash (by simpa using stop) spells,
          halts⟩

namespace Spells

/-- A whole sequence escapes nothing behind it. -/
theorem not_escapes_sequence {char : CodePoint} {tail rest : Text}
    (taken : Escape.further char (tail ++ rest) = tail) :
    ¬ Text.Escapes (.backslash :: char :: tail) := by
  rw [← taken]
  exact Escape.not_escapes_sequence char (tail ++ rest)

/-- Contents escape what stands behind them only if they dangle at the end of the input. -/
theorem not_escapes (spells : Spells strict stops behind contents value)
    (notAtEnd : behind ≠ []) : ¬ contents.Escapes := by
  induction spells with
  | nil => exact Text.not_escapes_nil
  | plain notBackslash goesOn rest inductionHypothesis =>
      exact Text.not_escapes_append (Text.not_escapes_singleton notBackslash) inductionHypothesis
  | sequence meant taken rest inductionHypothesis =>
      exact Text.not_escapes_append (not_escapes_sequence taken) inductionHypothesis
  | dangling lenient atEnd => exact absurd atEnd notAtEnd

/-- What holds nowhere in a piece of the contents holds nowhere in them, if it does not depend
on the pieces in front. -/
theorem nowhere (spells : Spells strict stops behind contents value) (Holds : Text → Nat → Prop)
    (behindPiece : ∀ piece rest index, ¬ Text.Escapes piece →
      Holds (piece ++ rest) (piece.length + index) → Holds rest index)
    (notPlain : ∀ char rest, char ≠ .backslash → stops char = false → ¬ Holds (char :: rest) 0)
    (notInSequence : ∀ char tail rest index, Escape.further char (tail ++ rest) = tail →
      index < (.backslash :: char :: tail).length →
        ¬ Holds (.backslash :: char :: tail ++ rest) index)
    (notDangling : ¬ Holds [.backslash] 0) :
    ∀ index < contents.length, ¬ Holds (contents ++ behind) index := by
  induction spells with
  | nil => exact fun index inFront => absurd inFront (Nat.not_lt_zero index)
  | @plain char contents value notBackslash goesOn rest inductionHypothesis =>
      intro index inFront holds
      rcases index with _ | index
      · exact notPlain char _ notBackslash goesOn holds
      · rw [Nat.add_comm] at holds
        exact inductionHypothesis index (Nat.lt_of_succ_lt_succ inFront)
          (behindPiece [char] _ index (Text.not_escapes_singleton notBackslash) holds)
  | @sequence char tail contents value meant taken rest inductionHypothesis =>
      intro index inFront holds
      rw [List.append_assoc] at holds
      by_cases inSequence : index < (.backslash :: char :: tail).length
      · exact notInSequence char tail _ index taken inSequence holds
      · rw [List.length_append] at inFront
        rw [← Nat.add_sub_cancel' (Nat.le_of_not_lt inSequence)] at holds
        exact inductionHypothesis _ (by omega)
          (behindPiece _ _ _ (not_escapes_sequence taken) holds)
  | dangling lenient atEnd =>
      subst atEnd
      intro index inFront
      rw [Nat.lt_one_iff.mp inFront]
      exact notDangling

/-- A continued line takes all spaces and tabs that stand behind it. -/
theorem not_endsContinued {next : CodePoint} {later : Text}
    (spells : Spells strict stops (next :: later) contents value)
    (blank : next ∈ spacesAndTabs) : ¬ contents.EndsContinued := by
  induction spells with
  | nil => exact Text.not_endsContinued_nil
  | @plain char contents value notBackslash goesOn rest inductionHypothesis =>
      have whole := Text.not_escapes_singleton notBackslash
      intro continued
      rcases (Text.endsContinued_append whole).mp continued with inRest | ⟨inUnit, _⟩
      · exact inductionHypothesis inRest
      · exact Text.not_endsContinued_singleton char inUnit
  | @sequence char tail contents value meant taken rest inductionHypothesis =>
      intro continued
      rcases (Text.endsContinued_append (not_escapes_sequence taken)).mp continued with
        inRest | ⟨inUnit, allBlank⟩
      · exact inductionHypothesis inRest
      rw [← taken] at inUnit
      have isNewline := Escape.eq_newline_of_endsContinued inUnit
      subst isNewline
      obtain ⟨first, isFirst, isBlank⟩ :
          ∃ first ∈ (contents ++ next :: later).head?, first ∈ spacesAndTabs := by
        rcases contents with _ | ⟨first, contents⟩
        · exact ⟨next, rfl, blank⟩
        · exact ⟨first, rfl, allBlank first List.mem_cons_self⟩
      have unlimited := (Escape.further_append_eq_iff.mp taken).2.2 first isFirst
        (List.contains_iff_mem.mpr isBlank)
      cases unlimited
  | dangling lenient atEnd => cases atEnd

/-- Something else may stand behind contents if they leave it alone. -/
theorem in_front_of (spells : Spells strict stops behind contents value) {other : Text}
    (alone : LeavesAlone contents other) : Spells strict stops other contents value := by
  induction spells with
  | nil => exact .nil
  | plain notBackslash goesOn rest inductionHypothesis =>
      have whole := Text.not_escapes_singleton notBackslash
      exact .plain notBackslash goesOn (inductionHypothesis (LeavesAlone.of_append whole alone))
  | @sequence char tail contents value meant taken rest inductionHypothesis =>
      have whole := not_escapes_sequence taken
      obtain ⟨follow, within, full⟩ := Escape.further_append_eq_iff.mp taken
      refine .sequence meant (Escape.further_append_eq_iff.mpr ⟨follow, within, ?_⟩)
        (inductionHypothesis (LeavesAlone.of_append whole alone))
      intro next isNext follows
      rcases contents with _ | ⟨first, contents⟩
      · have blank := Escape.swallowed_of_follows follows (alone.symbol next isNext)
        have isNewline := Escape.eq_newline_of_follows follows blank
        subst isNewline
        refine absurd ?_ (alone.unswallowed next isNext blank)
        rw [List.append_nil, ← taken]
        exact Escape.endsContinued_of_newline _
      · exact full next isNext follows
  | dangling lenient atEnd => exact .dangling lenient (alone.dangles (by decide))

end Spells

end TclWords
