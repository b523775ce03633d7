import Mathlib.Order.Bounds.Basic
import TclWords.Proofs.Rewind
import TclWords.Proofs.Spelling.Reading

/-!
Where words end in which backslash sequences are decoded.

Owns: that a quoted word ends at the first double quote that no backslash escapes; where a bare
word ends, which is told by parity and by what stands in front of a blank; and that the lenient
readers come to these places, however much the sequences in front of them take.
-/

namespace TclWords

open TclWords.Reader

variable {source : Source} {position : Nat} {rest contents behind value : Text} {strict : Bool}

/-! ### Quoted words -/

namespace Quoted

/-- No sequence takes a quote that could close the word. -/
theorem not_unescapedAt_of_spells
    (spells : Spells strict CodePoint.isDoubleQuote behind contents value) :
    ∀ index < contents.length, ¬ Text.UnescapedAt (contents ++ behind) .doubleQuote index := by
  apply spells.nowhere fun text index => text.UnescapedAt .doubleQuote index
  · exact fun piece rest index whole found => (Text.unescapedAt_append_right whole).mp found
  · intro char rest _ goesOn found
    rw [Option.some.inj found.1] at goesOn
    exact absurd goesOn (by decide)
  · intro char tail rest index taken inSequence found
    have notMem : .doubleQuote ∉ tail := by
      rw [← taken]
      exact Escape.notMem_further (by decide) (by decide) _
    have inFront := (Text.unescapedAt_append_left inSequence).mp found
    exact absurd (Text.unescapedAt_sequence notMem inFront).2 (by decide)
  · decide

/-- A lenient reader comes to the first quote that is not escaped, or to the end. -/
theorem read_cases (shown : source.Shows position rest) :
    (∃ index value, IsLeast {index | rest.UnescapedAt .doubleQuote index} index ∧
      read false source position = ⟨.ok value, position + index + 1, []⟩) ∨
    ((∀ index, ¬ rest.UnescapedAt .doubleQuote index) ∧
      read false source position = ⟨.error (.unterminatedQuote position), position,
        warned (position + rest.length) rest⟩) := by
  obtain ⟨contents, behind, value, rfl, spells, halts⟩ :=
    exists_spells false CodePoint.isDoubleQuote rest
  have nowhere := not_unescapedAt_of_spells spells
  cases halts with
  | ended =>
      rw [List.append_nil] at shown nowhere ⊢
      refine Or.inr ⟨fun index found => ?_, read_of_unclosed shown spells⟩
      exact nowhere index (Text.lt_length_of_unescapedAt found) found
  | @stopped char later notBackslash stop =>
      have isQuote : char = .doubleQuote := of_decide_eq_true stop
      subst isQuote
      have whole := spells.not_escapes (List.cons_ne_nil _ _)
      have found : Text.UnescapedAt (contents ++ .doubleQuote :: later) .doubleQuote
          (contents.length + 0) :=
        (Text.unescapedAt_append_right whole).mpr ⟨rfl, Text.not_escapes_nil⟩
      refine Or.inl ⟨contents.length, value, ⟨found, fun index foundHere => ?_⟩,
        read_of_closed shown spells⟩
      exact Nat.le_of_not_lt fun earlier => nowhere index earlier foundHere
  | refused isStrict malformed => cases isStrict

end Quoted

/-- **Quoted words end at the first unescaped quote.** A lenient reader of quoted words succeeds
if and only if a double quote stands behind an even number of backslashes, and passes the first
such quote. If there is none, the word is unterminated from where the reader started; a reader
of words, which starts behind the blanks and the opening quote, is back at that quote. -/
theorem quotes_end_at_first_unescaped (shown : source.Shows position rest) :
    ((∃ value, (Quoted.read false source position).result = .ok value) ↔
      ∃ index, rest.UnescapedAt .doubleQuote index) ∧
    (∀ index, IsLeast {index | rest.UnescapedAt .doubleQuote index} index →
      ∃ value, Quoted.read false source position = ⟨.ok value, position + index + 1, []⟩) ∧
    ((¬ ∃ index, rest.UnescapedAt .doubleQuote index) →
      Quoted.read false source position =
        ⟨.error (.unterminatedQuote position), position, warned (position + rest.length) rest⟩) ∧
    ∀ blanks later start, rest = blanks ++ .doubleQuote :: later → AllBlank blanks →
      start = position + blanks.length →
      (¬ ∃ index, Text.UnescapedAt later .doubleQuote index) →
        Word.readValue false source position =
          ⟨.error (.unterminatedQuote (start + 1)), start,
            warned (start + 1 + later.length) later⟩ := by
  have ofWord : ∀ blanks later start, rest = blanks ++ .doubleQuote :: later → AllBlank blanks →
      start = position + blanks.length →
      (¬ ∃ index, Text.UnescapedAt later .doubleQuote index) →
        Word.readValue false source position =
          ⟨.error (.unterminatedQuote (start + 1)), start,
            warned (start + 1 + later.length) later⟩ := by
    rintro blanks later start rfl blank rfl none
    have atStart := shown.append
    rcases Quoted.read_cases atStart.tail with ⟨index, _, least, _⟩ | ⟨_, run⟩
    · exact absurd ⟨index, least.1⟩ none
    · exact Word.readValue_of_word false shown blank (by decide)
        (rewindingTo_of_error atStart run trivial)
  rcases Quoted.read_cases shown with ⟨index, value, least, run⟩ | ⟨never, run⟩
  · refine ⟨?_, fun other leastOther => ?_, fun none => absurd ⟨index, least.1⟩ none, ofWord⟩
    · rw [run]
      exact iff_of_true ⟨value, rfl⟩ ⟨index, least.1⟩
    · exact ⟨value, leastOther.unique least ▸ run⟩
  · refine ⟨?_, fun index least => absurd least.1 (never index), fun _ => run, ofWord⟩
    rw [run]
    refine iff_of_false ?_ fun found => found.elim never
    rintro ⟨value, succeeds⟩
    cases succeeds

/-- An escaped quote, a number of many digits, an escaped backslash and a continued line stand in
front of the quote that ends the first of two words. The only quote in the second is escaped. -/
theorem quotes_end_at_first_unescaped_past_sequences :
    let text := Text.ofString "\"a\\\"\\x0041\\\\\\\n \t\" \"b\\\""
    IsLeast {index | Text.UnescapedAt (text.drop 1) .doubleQuote index} 15 ∧
      (∃ value, Quoted.read false (.stream text) 1 = ⟨.ok value, 17, []⟩) ∧
      Word.readValue false (.stream text) 17 = ⟨.error (.unterminatedQuote 19), 18, []⟩ := by
  intro text
  have least : IsLeast {index | Text.UnescapedAt (text.drop 1) .doubleQuote index} 15 := by
    have found : Text.UnescapedAt (text.drop 1) .doubleQuote 15 := by decide +kernel
    have noneBefore : ∀ index < 15, ¬ Text.UnescapedAt (text.drop 1) .doubleQuote index := by
      decide +kernel
    exact ⟨found, fun index foundHere =>
      Nat.le_of_not_lt fun earlier => noneBefore index earlier foundHere⟩
  have noneLater : ¬ ∃ index, Text.UnescapedAt (Text.ofString "b\\\"") .doubleQuote index := by
    have noneWithin : ∀ index < 3,
        ¬ Text.UnescapedAt (Text.ofString "b\\\"") .doubleQuote index := by decide
    rintro ⟨index, found⟩
    exact noneWithin index (Text.lt_length_of_unescapedAt found) found
  obtain ⟨_, passes, _, _⟩ := quotes_end_at_first_unescaped (Source.shows_stream text 1)
  obtain ⟨_, _, _, fails⟩ := quotes_end_at_first_unescaped (Source.shows_stream text 17)
  exact ⟨least, passes 15 least, fails [.space] (Text.ofString "b\\\"") 18 (by decide +kernel)
    (by decide) rfl noneLater⟩

/-! ### Bare words -/

namespace Bare

/-- At `index` stands a blank that is not escaped, and that no continued line in front of it
takes. -/
def StopsAt (rest : Text) (index : Nat) : Prop :=
  ∃ char ∈ rest[index]?, char.isBlank = true ∧ ¬ Text.Escapes (rest.take index) ∧
    ¬ (char ∈ spacesAndTabs ∧ Text.EndsContinued (rest.take index))

/-- A word could end at `index`: a blank stops it there, or the text ends. -/
def EndsAt (rest : Text) (index : Nat) : Prop :=
  index = rest.length ∨ StopsAt rest index

instance (rest : Text) (index : Nat) : Decidable (StopsAt rest index) :=
  inferInstanceAs (Decidable (∃ char ∈ rest[index]?, _))

instance (rest : Text) (index : Nat) : Decidable (EndsAt rest index) :=
  inferInstanceAs (Decidable (_ ∨ _))

/-- Of the blanks in a sequence, the first is escaped, and the others belong to a continued
line. -/
private theorem not_stopsAt_sequence {char : CodePoint} {tail : Text} {index : Nat}
    (taken : Escape.further char (tail ++ rest) = tail)
    (inSequence : index < (.backslash :: char :: tail).length) :
    ¬ StopsAt (.backslash :: char :: tail ++ rest) index := by
  rintro ⟨other, isOther, blank, notEscaped, notTaken⟩
  rcases index with _ | _ | index
  · cases isOther
    exact absurd blank (by decide)
  · exact notEscaped (by decide : Text.Escapes [.backslash])
  · have inTail : index < tail.length := by
      simp only [List.length_cons] at inSequence
      omega
    have member : other ∈ tail := by
      rw [List.cons_append, List.cons_append, List.getElem?_cons_succ, List.getElem?_cons_succ,
        List.getElem?_append_left inTail] at isOther
      exact List.mem_of_getElem? isOther
    obtain ⟨follow, _, _⟩ := Escape.further_append_eq_iff.mp taken
    have swallowed := Escape.swallowed_of_follows (follow other member)
      (CodePoint.isAlphanumeric_of_isBlank blank)
    have isNewline := Escape.eq_newline_of_follows (follow other member) swallowed
    subst isNewline
    refine notTaken ⟨swallowed, [.backslash], tail.take index, ?_, by decide, ?_⟩
    · simp [List.take_append_of_le_length (Nat.le_of_lt inTail)]
    · intro earlier inFront
      exact List.contains_iff_mem.mp (follow earlier (List.mem_of_mem_take inFront))

/-- No blank in the contents of a word could end it. -/
theorem not_stopsAt_of_spells (spells : Spells strict CodePoint.isBlank behind contents value) :
    ∀ index < contents.length, ¬ StopsAt (contents ++ behind) index := by
  apply spells.nowhere StopsAt
  · rintro piece rest index whole ⟨char, isChar, blank, notEscaped, notTaken⟩
    rw [List.getElem?_append_right (Nat.le_add_right _ _), Nat.add_sub_cancel_left] at isChar
    rw [List.take_length_add_append, Text.escapes_append whole] at notEscaped
    rw [List.take_length_add_append, Text.endsContinued_append whole] at notTaken
    exact ⟨char, isChar, blank, notEscaped, fun taken => notTaken ⟨taken.1, Or.inl taken.2⟩⟩
  · rintro char rest _ goesOn ⟨other, isOther, blank, _⟩
    cases isOther
    rw [goesOn] at blank
    cases blank
  · exact fun char tail rest index taken inSequence => not_stopsAt_sequence taken inSequence
  · decide

/-- A lenient reader comes to the first place where the word could end. -/
theorem read_reaches_end (shown : source.Shows position rest) :
    ∃ index value, IsLeast {index | EndsAt rest index} index ∧
      read false source position =
        ⟨.ok value, position + index, warned (position + index) (rest.take index)⟩ := by
  obtain ⟨contents, behind, value, rfl, spells, halts⟩ :=
    exists_spells false CodePoint.isBlank rest
  have noneBefore : ∀ index, EndsAt (contents ++ behind) index → contents.length ≤ index := by
    rintro index (rfl | stops)
    · exact List.length_append ▸ Nat.le_add_right _ _
    · exact Nat.le_of_not_lt fun earlier => not_stopsAt_of_spells spells index earlier stops
  have ends : EndsAt (contents ++ behind) contents.length ∧
      ∀ char ∈ behind.head?, char.isBlank = true := by
    cases halts with
    | ended => exact ⟨Or.inl (by simp), by simp⟩
    | @stopped char later notBackslash stop =>
        refine ⟨Or.inr ⟨char, by simp, stop, ?_⟩, by simpa using stop⟩
        rw [List.take_left]
        exact ⟨spells.not_escapes (List.cons_ne_nil _ _),
          fun taken => spells.not_endsContinued taken.1 taken.2⟩
    | refused isStrict malformed => cases isStrict
  refine ⟨contents.length, value, ⟨ends.1, noneBefore⟩, ?_⟩
  rw [List.take_left]
  exact read_of_spells shown spells ends.2

end Bare

/-! ### What does not matter to the end of a bare word -/

/-- What matters of a character to the end of a bare word: nothing, unless it is a blank or a
backslash. -/
def CodePoint.outline (char : CodePoint) : Option CodePoint :=
  if char.isBlank = true ∨ char = .backslash then some char else none

theorem CodePoint.outline_eq_some_iff {char other : CodePoint} :
    char.outline = some other ↔ char = other ∧ (other.isBlank = true ∨ other = .backslash) := by
  unfold CodePoint.outline
  split
  · next matters =>
      rw [Option.some.injEq]
      exact ⟨fun same => ⟨same, same ▸ matters⟩, And.left⟩
  · next plain => exact iff_of_false nofun fun both => plain (both.1 ▸ both.2)

namespace Text

variable {text other : Text}

theorem backslashesAtEnd_of_outline
    (same : text.map CodePoint.outline = other.map CodePoint.outline) :
    text.backslashesAtEnd = other.backslashesAtEnd := by
  have counted : ∀ text : Text, text.backslashesAtEnd =
      ((text.map CodePoint.outline).reverse.takeWhile (· = some .backslash)).length := by
    intro text
    rw [← List.map_reverse, List.takeWhile_map, List.length_map, backslashesAtEnd]
    congr 2
    funext char
    simp [CodePoint.outline_eq_some_iff]
  rw [counted, counted, same]

theorem escapes_of_outline (same : text.map CodePoint.outline = other.map CodePoint.outline) :
    text.Escapes ↔ other.Escapes := by
  rw [Escapes, Escapes, backslashesAtEnd_of_outline same]

private theorem EndsContinued.of_outline (continued : text.EndsContinued)
    (same : other.map CodePoint.outline = text.map CodePoint.outline) : other.EndsContinued := by
  obtain ⟨before, blanks, rfl, escapes, blank⟩ := continued
  rw [List.map_append, List.map_cons] at same
  obtain ⟨front, later, rfl, sameFront, sameLater⟩ := List.map_eq_append_iff.mp same
  obtain ⟨char, swallowed, rfl, isNewline, sameBlanks⟩ := List.map_eq_cons_iff.mp sameLater
  have newlineMatters : CodePoint.newline.outline = some .newline := by decide
  rw [newlineMatters, CodePoint.outline_eq_some_iff] at isNewline
  refine ⟨front, swallowed, by rw [isNewline.1], (escapes_of_outline sameFront).mpr escapes, ?_⟩
  intro char member
  have blankMatters : ∀ char ∈ spacesAndTabs, char.outline = some char := by decide
  obtain ⟨origin, inBlanks, sameChar⟩ :=
    List.mem_map.mp (sameBlanks ▸ List.mem_map_of_mem member)
  have isBlank := blank origin inBlanks
  rw [blankMatters origin isBlank] at sameChar
  exact (CodePoint.outline_eq_some_iff.mp sameChar.symm).1 ▸ isBlank

theorem endsContinued_of_outline
    (same : text.map CodePoint.outline = other.map CodePoint.outline) :
    text.EndsContinued ↔ other.EndsContinued :=
  ⟨fun continued => continued.of_outline same.symm, fun continued => continued.of_outline same⟩

end Text

namespace Bare

variable {other : Text}

private theorem StopsAt.of_outline {index : Nat} (stops : StopsAt rest index)
    (same : other.map CodePoint.outline = rest.map CodePoint.outline) : StopsAt other index := by
  obtain ⟨char, isChar, blank, notEscaped, notTaken⟩ := stops
  have sameFront : (other.take index).map CodePoint.outline =
      (rest.take index).map CodePoint.outline := by
    rw [List.map_take, List.map_take, same]
  have sameChar : other[index]?.map CodePoint.outline = some (some char) := by
    rw [← List.getElem?_map, same, List.getElem?_map, isChar, Option.map_some,
      CodePoint.outline_eq_some_iff.mpr ⟨rfl, Or.inl blank⟩]
  obtain ⟨found, isFound, outlined⟩ := Option.map_eq_some_iff.mp sameChar
  refine ⟨char, (CodePoint.outline_eq_some_iff.mp outlined).1 ▸ isFound, blank, ?_, ?_⟩
  · rwa [Text.escapes_of_outline sameFront]
  · rwa [Text.endsContinued_of_outline sameFront]

/-- Where a word could end depends on the blanks and backslashes only. -/
theorem endsAt_of_outline (same : other.map CodePoint.outline = rest.map CodePoint.outline)
    (index : Nat) : EndsAt other index ↔ EndsAt rest index := by
  have sameLength : other.length = rest.length := by
    simpa using congrArg List.length same
  unfold EndsAt
  rw [sameLength]
  exact or_congr_right ⟨fun stops => stops.of_outline same.symm, fun stops => stops.of_outline same⟩

end Bare

/-- **Bare words end at the first unprotected blank.** A lenient reader of bare words succeeds
everywhere, and stops at the first index where the text ends or a blank stands that is neither
escaped nor taken by a continued line. It stops there in every text with the same blanks and
backslashes: quotes and braces do not matter. -/
theorem bare_words_end_at_first_blank (shown : source.Shows position rest) :
    ∃ index value, IsLeast {index | Bare.EndsAt rest index} index ∧
      Bare.read false source position =
        ⟨.ok value, position + index, warned (position + index) (rest.take index)⟩ ∧
      ∀ twin here other, Source.Shows twin here other →
        other.map CodePoint.outline = rest.map CodePoint.outline →
          ∃ value warnings, Bare.read false twin here = ⟨.ok value, here + index, warnings⟩ := by
  obtain ⟨index, value, least, run⟩ := Bare.read_reaches_end shown
  refine ⟨index, value, least, run, fun twin here other shownOther same => ?_⟩
  obtain ⟨otherIndex, otherValue, leastOther, otherRun⟩ := Bare.read_reaches_end shownOther
  simp only [Bare.endsAt_of_outline same] at leastOther
  rw [least.unique leastOther]
  exact ⟨otherValue, _, otherRun⟩

/-- A word with a quote and a brace in it goes on behind an escaped blank and behind a continued
line with the spaces of the next one. -/
theorem bare_words_end_at_first_blank_past_continued_line :
    let text := Text.ofString "a\"b\\ \x7b\\\n \tc d"
    (Source.indexed text).Shows 0 text ∧ Bare.EndsAt text 11 ∧
      (∀ index < 11, ¬ Bare.EndsAt text index) ∧
      ∃ index value, IsLeast {index | Bare.EndsAt text index} index ∧
        Bare.read false (.indexed text) 0 =
          ⟨.ok value, 0 + index, warned (0 + index) (text.take index)⟩ ∧
        ∀ twin here other, Source.Shows twin here other →
          other.map CodePoint.outline = text.map CodePoint.outline →
            ∃ value warnings, Bare.read false twin here = ⟨.ok value, here + index, warnings⟩ := by
  intro text
  have shown : (Source.indexed text).Shows 0 text := Source.shows_indexed (Nat.zero_le _)
  have ends : Bare.EndsAt text 11 := by decide +kernel
  have noneBefore : ∀ index < 11, ¬ Bare.EndsAt text index := by decide +kernel
  exact ⟨shown, ends, noneBefore, bare_words_end_at_first_blank shown⟩

end TclWords
