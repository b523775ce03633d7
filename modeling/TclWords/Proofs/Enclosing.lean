import TclWords.Proofs.Quoting
import TclWords.Proofs.Surroundings

/-!
What is put between delimiters again.

Owns: that the text of a bare word, put between double quotes, is read for the same value; and
that the value of a braced word, put in braces, is read for itself.

Both readers that decode sequences go by one grammar, so contents of the one are contents of the
other if none of their characters stops it. What a reader of braced words gathers is balanced at
every step, so there is nothing left in it that could be folded, or that could close a word.
-/

namespace TclWords

open TclWords.Reader

/-! ### Bare words between quotes -/

/-- Contents are the same for another reader if they have no unescaped character that stops
it. -/
theorem Spells.of_goesOn {strict : Bool} {stops others : CodePoint → Bool}
    {behind contents value : Text} (spells : Spells strict stops behind contents value)
    (goesOn : ∀ char index, contents.UnescapedAt char index → others char = false) :
    Spells strict others behind contents value := by
  induction spells with
  | nil => exact .nil
  | @plain char contents value notBackslash _ rest inductionHypothesis =>
      have whole := Text.not_escapes_singleton notBackslash
      exact .plain notBackslash (goesOn char 0 ⟨rfl, Text.not_escapes_nil⟩)
        (inductionHypothesis fun other _ found =>
          goesOn other _ ((Text.unescapedAt_append_right whole).mpr found))
  | @sequence char tail contents value meant taken rest inductionHypothesis =>
      have whole := not_escapes_sequence taken
      exact .sequence meant taken (inductionHypothesis fun other _ found =>
        goesOn other _ ((Text.unescapedAt_append_right whole).mpr found))
  | dangling lenient atEnd => exact .dangling lenient atEnd

/-- **Quoted words decode as bare ones do.** The text of a bare word that was read without a
warning can be put between double quotes, if it has no double quote of its own that is not
escaped. By itself that is read for the same value, with no warning either. -/
theorem bare_words_decode_in_quotes {source : Source} {position after : Nat} {strict : Bool}
    {rest : Text} {word : Word} (shown : source.Shows position rest)
    (run : Word.read strict source position = ⟨.ok (some word), after, []⟩)
    (isBare : word.kind = .bare) :
    let written : Text := (rest.drop (word.start - position)).take (word.stop - word.start)
    (∀ index, ¬ written.UnescapedAt .doubleQuote index) →
      split strict (.doubleQuote :: written ++ [.doubleQuote]) =
        ⟨.ok [word.value], written.length + 2, []⟩ := by
  intro written noQuote
  obtain ⟨blanks, text, behind, rfl, _, spelled, isKind, atStart, atStop, _, silent⟩ :=
    Word.exists_spelled_of_read shown run
  have isText : written = text := by
    simp [written, atStart, atStop]
  rw [isText] at noQuote ⊢
  have whole : ¬ text.Escapes := fun escapes => by
    rw [warned, if_pos escapes] at silent
    cases silent
  have spells := spelled.spells_of_bare (isKind.symm.trans isBare)
  have alone : LeavesAlone text [.doubleQuote] :=
    { dangles := fun escapes => absurd escapes whole
      symbol := by
        rintro next ⟨⟩
        decide
      unswallowed := by
        rintro next ⟨⟩ blank
        exact absurd blank (by decide) }
  have quotable : Spells strict CodePoint.isDoubleQuote [.doubleQuote] text word.value := by
    refine (spells.in_front_of alone).of_goesOn fun char index found => ?_
    exact decide_eq_false fun isQuote => noQuote index (isQuote ▸ found)
  rw [(Word.Spelled.quoted quotable).split_alone,
    warned_eq_nil (Text.not_escapes_concat (by decide))]
  simp

/-- A word with a number, an escaped quote, an escaped backslash and, at its end, a continued
line. -/
theorem bare_words_decode_in_quotes_past_sequences :
    let text := Text.ofString "\x7bx\x7d \\x41\\\"\\\\\\\n \t"
    let word : Word := ⟨.bare, Text.ofString "A\"\\ ", 4, 16⟩
    Word.read true (.stream text) 3 = ⟨.ok (some word), 16, []⟩ ∧
      split true (Text.ofString "\"\\x41\\\"\\\\\\\n \t\"") =
        ⟨.ok [Text.ofString "A\"\\ "], 14, []⟩ := by
  intro text word
  have wordRun : Word.read true (.stream text) 3 = ⟨.ok (some word), 16, []⟩ :=
    Run.ext (by decide +kernel) (by decide +kernel) (by decide +kernel)
  have noQuote : ∀ index < 12,
      ¬ Text.UnescapedAt ((text.drop 4).take 12) .doubleQuote index := by decide +kernel
  refine ⟨wordRun, bare_words_decode_in_quotes (Source.shows_stream text 3) wordRun rfl ?_⟩
  exact fun index found => noQuote index (Text.lt_length_of_unescapedAt found) found

/-! ### Braced values in braces -/

namespace Braced

variable {source : Source} {start position inner after : Nat} {rest : Text}

/-- What a step comes to inside of `inner` braces, by the text that is shown. A piece balances
together with whatever balances behind it; the only one that does not is a backslash at the end
of the input. -/
inductive Stepped (position inner : Nat) (rest : Text) (run : Run (Option (Text × Nat))) :
    Prop where
  | failed {fault : Fault} {after : Nat} (fails : run = ⟨.error fault, after, []⟩)
  | closed (outermost : inner = 0) (closes : run = ⟨.ok none, position + 1, []⟩)
  | ended (last : rest = [.backslash])
      (keeps : run = ⟨.ok (some ([.backslash], inner)), position + 1, []⟩)
  | piece {taken behind piece : Text} {next : Nat} (same : rest = taken ++ behind)
      (nonempty : taken ≠ [])
      (passes : run = ⟨.ok (some (piece, next)), position + taken.length, []⟩)
      (balances : ∀ later, Balanced next later → Balanced inner (piece ++ later))

private theorem stepped (opened : source.Stands start) (shown : source.Shows position rest)
    (inner : Nat) : Stepped position inner rest (step start inner source position) := by
  rcases rest with _ | ⟨char, rest⟩
  · exact .failed (step_of_nil opened shown inner)
  by_cases isBackslash : char = .backslash
  · subst isBackslash
    rcases rest with _ | ⟨second, rest⟩
    · exact .ended rfl (step_of_last_backslash shown inner)
    by_cases isNewline : second = .newline
    · subst isNewline
      have same : .backslash :: .newline :: rest =
          (.backslash :: .newline :: rest.takeWhile spacesAndTabs.contains) ++
            rest.dropWhile spacesAndTabs.contains := by simp
      have width : position + 2 + (rest.takeWhile spacesAndTabs.contains).length = position +
          (.backslash :: .newline :: rest.takeWhile spacesAndTabs.contains).length := by
        simp only [List.length_cons]
        omega
      -- A folded line leaves a space, which pairs with nothing in front of it or behind it.
      have spaced : ∀ later, Balanced inner later → Balanced inner ([.space] ++ later) :=
        fun _ => .plain (by decide) (by decide) (by decide)
      exact .piece same (List.cons_ne_nil _ _) (width ▸ step_of_fold shown inner) spaced
    · exact .piece rfl (List.cons_ne_nil _ [second]) (step_of_pair shown isNewline inner)
        fun later => .pair isNewline
  by_cases isOpen : char = .openBrace
  · subst isOpen
    exact .piece rfl (List.cons_ne_nil _ []) (step_of_open shown inner) fun later => .opening
  by_cases isClose : char = .closeBrace
  · subst isClose
    cases inner with
    | zero => exact .closed rfl (step_of_close shown)
    | succ inner =>
        exact .piece rfl (List.cons_ne_nil _ []) (step_of_inner_close shown inner)
          fun later => .closing
  · exact .piece rfl (List.cons_ne_nil _ [])
      (step_of_plain shown isBackslash isOpen isClose inner)
      fun later => .plain isBackslash isOpen isClose

/-- What is gathered up to the brace that closes a word is balanced. -/
private theorem balanced_of_collect (opened : source.Stands start)
    (shown : source.Shows position rest) {pieces : List Text} {warnings : List Warning}
    (run : collect (step start) (consuming_step start) inner source position =
      ⟨.ok pieces, after, warnings⟩) : Balanced inner pieces.flatten := by
  -- On the length of the text shown, as a folded line takes any number of characters.
  induction remaining : rest.length using Nat.strongRecOn
    generalizing rest position inner pieces warnings with
  | ind count inductionHypothesis =>
      cases stepped opened shown inner with
      | failed fails =>
          rw [collect_of_error fails] at run
          cases run
      | closed outermost closes =>
          rw [collect_of_none closes] at run
          cases run
          exact outermost ▸ .nil
      | ended last keeps =>
          subst last
          rw [collect_of_some keeps (collect_of_error (step_of_nil opened shown.tail inner))] at run
          cases run
      | @piece taken behind piece next same nonempty passes balances =>
          subst same
          have shorter := List.length_pos_iff.mpr nonempty
          rw [List.length_append] at remaining
          rcases laterRun : collect (step start) (consuming_step start) next source
            (position + taken.length) with ⟨fault | later, last, given⟩
          · rw [collect_of_some passes laterRun] at run
            cases run
          · rw [collect_of_some passes laterRun] at run
            cases run
            exact balances _
              (inductionHypothesis behind.length (by omega) shown.append laterRun rfl)

/-- The value of a braced word could have been written in braces as it is. -/
theorem balanced_of_read (shown : source.Shows position rest) {value : Text}
    {warnings : List Warning} (run : read source position = ⟨.ok value, after, warnings⟩) :
    Balanced 0 value := by
  rw [read_of_shows shown, map_apply] at run
  rcases gathered : collect (step position) (consuming_step position) 0 source position with
    ⟨fault | pieces, last, given⟩
  · rw [gathered] at run
    cases run
  · rw [gathered] at run
    cases run
    exact balanced_of_collect shown.stands shown gathered

end Braced

/-- A word that is written by itself is all that a text is split into. -/
private theorem split_write (strict : Bool) {kind : WordKind} {value : Text}
    (admitted : kind.Admits value) :
    split strict (kind.write value) = ⟨.ok [value], (kind.write value).length, []⟩ := by
  have noBlank : AllBlank [] := fun char member => absurd member List.not_mem_nil
  have joined : Written.join [⟨[], noBlank, kind, value, admitted⟩] [] = kind.write value :=
    List.append_nil _
  have shown := Source.shows_indexed (Nat.zero_le (kind.write value).length)
  rw [List.drop_zero, ← joined] at shown
  have scanned := Written.scan_join strict noBlank (List.isChain_singleton _) shown
  rw [joined] at scanned
  rw [split, readValues_apply, scanned]
  simp [Written.words]

/-- **The value of a braced word stays as it is in braces.** Whatever a braced word was read for
is read for itself when it is put in braces, in front of any text, and by itself it is the only
word, strict or not, with no warning. -/
theorem braced_values_stay {source : Source} {position after : Nat} {rest value : Text}
    {warnings : List Warning} (shown : source.Shows position rest)
    (run : Braced.read source position = ⟨.ok value, after, warnings⟩) :
    (∀ other here behind, Source.Shows other here (value ++ .closeBrace :: behind) →
      Braced.read other here = ⟨.ok value, here + value.length + 1, []⟩) ∧
    ∀ strict, split strict (.openBrace :: value ++ [.closeBrace]) =
      ⟨.ok [value], value.length + 2, []⟩ := by
  have balanced := Braced.balanced_of_read shown run
  refine ⟨fun other here behind shownOther => Braced.read_of_balanced balanced shownOther,
    fun strict => ?_⟩
  have admitted : WordKind.braced.Admits value := balanced
  have alone := split_write strict admitted
  simpa [WordKind.write] using alone

/-- A line continued behind an even number of backslashes, inner braces, and an escaped one. The
value is put in front of a brace that is not its own. -/
theorem braced_values_stay_behind_fold :
    let text := Text.ofString "x \x7ba\\\\\\\n \x7bb\x7d\\\x7d\x7d"
    let value := Text.ofString "a\\\\ \x7bb\x7d\\\x7d"
    Braced.read (.stream text) 3 = ⟨.ok value, 15, []⟩ ∧
      Braced.read (.indexed (value ++ Text.ofString "\x7d\x7d c")) 0 = ⟨.ok value, 10, []⟩ ∧
      split true (.openBrace :: value ++ [.closeBrace]) = ⟨.ok [value], 11, []⟩ := by
  intro text value
  have wordRun : Braced.read (.stream text) 3 = ⟨.ok value, 15, []⟩ :=
    Run.ext (by decide +kernel) (by decide +kernel) (by decide +kernel)
  obtain ⟨stays, splits⟩ := braced_values_stay (Source.shows_stream text 3) wordRun
  refine ⟨wordRun, stays _ 0 (Text.ofString "\x7d c") ?_, splits true⟩
  exact ⟨Nat.zero_le _, rfl⟩

end TclWords
