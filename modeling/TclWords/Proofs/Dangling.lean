import Mathlib.Logic.Relation
import TclWords.Proofs.Ending
import TclWords.Proofs.Strictness
import TclWords.Proofs.Surroundings

/-!
The warning about a backslash that ends the input.

Owns: which word an iteration is reading when it comes to the end of a text; and that the only
warning there is, about a backslash that is kept, is given for such a word if it escapes the end.

A word that warns takes all of the text that is left. So an iteration that goes on has not warned
yet, and it is enough to look at the last word that it reads.
-/

namespace TclWords

open TclWords.Reader

/-! ### What escapes the end -/

/-- Of contents that escape the end, the last backslash is kept. -/
theorem Spells.exists_concat_of_escapes {strict : Bool} {stops : CodePoint → Bool}
    {behind contents value : Text} (spells : Spells strict stops behind contents value)
    (escapes : contents.Escapes) : ∃ front, value = front ++ [.backslash] := by
  induction spells with
  | nil => exact absurd escapes Text.not_escapes_nil
  | plain notBackslash goesOn rest inductionHypothesis =>
      obtain ⟨front, rfl⟩ := inductionHypothesis
        ((Text.escapes_append (Text.not_escapes_singleton notBackslash)).mp escapes)
      exact ⟨_ :: front, rfl⟩
  | sequence meant taken rest inductionHypothesis =>
      obtain ⟨front, rfl⟩ := inductionHypothesis
        ((Text.escapes_append (not_escapes_sequence taken)).mp escapes)
      exact ⟨_ :: front, rfl⟩
  | dangling lenient atEnd => exact ⟨[], rfl⟩

namespace Word

variable {source : Source} {position after : Nat} {strict : Bool} {rest blanks later : Text}
  {behind written value : Text} {fault : Fault} {warnings : List Warning}

/-- Only a bare word escapes the end, and only if it is there. -/
theorem Spelled.bare_of_escapes (spelled : Spelled strict behind written value)
    (escapes : written.Escapes) :
    WordKind.ofOpening (written.take 1) = .bare ∧ behind = [] := by
  cases spelled with
  | quoted spells => exact absurd escapes (Text.not_escapes_concat (by decide))
  | braced first => exact absurd escapes (Text.not_escapes_concat (by decide))
  | bare notBlank notQuote notBrace spells ends =>
      exact ⟨WordKind.ofOpening_eq_bare_iff.mpr ⟨notQuote, notBrace⟩,
        Decidable.byContradiction fun notAtEnd => spells.not_escapes notAtEnd escapes⟩

/-! ### Words that are not closed -/

/-- Leniently, a quoted word that is not closed is at fault, with all that is left of the text. -/
theorem read_of_unclosed (shown : source.Shows position (blanks ++ .doubleQuote :: later))
    (blank : AllBlank blanks) (unclosed : ∀ index, ¬ later.UnescapedAt .doubleQuote index) :
    let start := position + blanks.length
    read false source position = ⟨.error (.unterminatedQuote (start + 1)), start,
      warned (start + 1 + later.length) later⟩ := by
  have atStart := shown.append
  rcases Quoted.read_cases atStart.tail with ⟨index, _, least, _⟩ | ⟨_, run⟩
  · exact absurd least.1 (unclosed index)
  · exact read_of_word false shown blank (by decide) (rewindingTo_of_error atStart run trivial)

/-- Leniently, only words that are not closed are at fault. -/
theorem unclosed_of_read_eq_error (shown : source.Shows position rest)
    (run : read false source position = ⟨.error fault, after, warnings⟩) :
    ∃ blanks later : Text, AllBlank blanks ∧
      ((rest = blanks ++ .doubleQuote :: later ∧
          ∀ index, ¬ later.UnescapedAt .doubleQuote index) ∨
        rest = blanks ++ .openBrace :: later) := by
  obtain ⟨⟨blanks, char, later, rfl, blank, notBlank, rfl⟩, _⟩ := read_eq_error shown run
  have atStart := shown.append
  refine ⟨blanks, later, blank, ?_⟩
  by_cases isQuote : char = .doubleQuote
  · subst isQuote
    rcases Quoted.read_cases atStart.tail with ⟨index, value, _, closes⟩ | ⟨unclosed, _⟩
    · rw [read_of_word false shown blank notBlank (rewindingTo_eq_ok_iff.mpr closes)] at run
      cases run
    · exact Or.inl ⟨rfl, unclosed⟩
  by_cases isBrace : char = .openBrace
  · subst isBrace
    exact Or.inr rfl
  · obtain ⟨index, value, _, ends⟩ := Bare.read_reaches_end atStart
    have body := (readBody_of_bare false atStart isQuote isBrace).trans ends
    rw [read_of_word false shown blank notBlank (rewindingTo_eq_ok_iff.mpr body)] at run
    cases run

end Word

/-! ### The iteration -/

/-- Leniently, one word is read from the one position up to the other. -/
def Source.PassesWord (source : Source) (before after : Nat) : Prop :=
  ∃ word warnings, Word.read false source before = ⟨.ok (some word), after, warnings⟩

/-- At `position`, the word is read that is being read where the text ends: a bare word that
ends there, or a quoted word that is not closed. It begins at `start`. -/
inductive Word.MeetsEnd (text : Text) (position : Nat) : WordKind → Nat → Prop where
  | bare {start : Nat} {value : Text} {warnings : List Warning}
      (run : Word.read false (.indexed text) position =
        ⟨.ok (some ⟨.bare, value, start, text.length⟩), text.length, warnings⟩) :
      MeetsEnd text position .bare start
  | quoted {start : Nat} (first : FirstWordAt position (text.drop position) start)
      (opens : text[start]? = some .doubleQuote)
      (unclosed : ∀ index, ¬ Text.UnescapedAt (text.drop (start + 1)) .doubleQuote index) :
      MeetsEnd text position .quoted start

/-- A lenient iteration over the text is reading this word when it comes to the end. -/
def Text.EndsInWord (text : Text) (kind : WordKind) (start : Nat) : Prop :=
  ∃ position, Relation.ReflTransGen (Source.indexed text).PassesWord 0 position ∧
    Word.MeetsEnd text position kind start

/-- Where the contents of a word begin that begins at `start`. -/
def WordKind.contentsFrom : WordKind → Nat → Nat
  | .bare, start => start
  | .quoted, start => start + 1
  | .braced, start => start + 1

section Iteration

variable {text : Text} {position after start : Nat}

/-- A word is written up to where it was read, and warns if it escapes the end. -/
private theorem written_of_read (inText : position ≤ text.length) {word : Word}
    {warnings : List Warning}
    (run : Word.read false (.indexed text) position = ⟨.ok (some word), after, warnings⟩) :
    ∃ written : Text, text.drop word.start = written ++ text.drop after ∧
      Word.Spelled false (text.drop after) written word.value ∧
      word.kind = .ofOpening (written.take 1) ∧ word.stop = after ∧
      after ≤ text.length ∧ warnings = warned after written := by
  obtain ⟨blanks, written, behind, same, blank, spelled, isKind, atStart, atStop, rfl, given⟩ :=
    Word.exists_spelled_of_read (Source.shows_indexed inText) run
  have shown : (Source.indexed text).Shows position (blanks ++ (written ++ behind)) :=
    ⟨inText, same⟩
  have shownWord := shown.append
  rw [← atStart] at shownWord
  have shownBehind := shownWord.append
  rw [← atStop] at shownBehind
  obtain ⟨stopInText, rfl⟩ := shownBehind
  exact ⟨written, shownWord.2, spelled, isKind, rfl, stopInText, given⟩

/-- A word in front of more text does not warn. -/
private theorem silent_of_more (inText : position ≤ text.length) (more : after < text.length)
    {word : Word} {warnings : List Warning}
    (run : Word.read false (.indexed text) position = ⟨.ok (some word), after, warnings⟩) :
    warnings = [] := by
  obtain ⟨written, _, spelled, _, _, _, given⟩ := written_of_read inText run
  rw [given]
  refine warned_eq_nil (fun escapes => ?_) after
  have ended := List.drop_eq_nil_iff.mp (spelled.bare_of_escapes escapes).2
  omega

namespace Word.MeetsEnd

theorem in_front {kind : WordKind} (inText : position ≤ text.length)
    (meets : MeetsEnd text position kind start) : position < text.length := by
  cases meets with
  | bare run => exact (Word.consuming_read false _ _ _ _ _ run).1
  | quoted first opens unclosed =>
      obtain ⟨blanks, char, later, same, _⟩ := first
      refine Nat.lt_of_le_of_ne inText fun atEnd => ?_
      rw [atEnd, List.drop_length] at same
      simp at same

theorem of_unclosed {blanks later : Text} (inText : position ≤ text.length)
    (same : text.drop position = blanks ++ .doubleQuote :: later) (blank : AllBlank blanks)
    (unclosed : ∀ index, ¬ later.UnescapedAt .doubleQuote index) :
    MeetsEnd text position .quoted (position + blanks.length) := by
  have shown : (Source.indexed text).Shows position (blanks ++ .doubleQuote :: later) :=
    ⟨inText, same⟩
  obtain ⟨_, left⟩ := shown.append
  refine .quoted ⟨blanks, .doubleQuote, later, same, blank, by decide, rfl⟩ ?_ ?_
  · rw [← List.head?_drop, left, List.head?_cons]
  · rwa [← List.tail_drop, left, List.tail_cons]

/-- A word that warns is bare, and the text ends behind it. -/
theorem of_warning (inText : position ≤ text.length) {word : Word} {warnings : List Warning}
    (run : read false (.indexed text) position = ⟨.ok (some word), after, warnings⟩)
    (warns : warnings ≠ []) : MeetsEnd text position .bare word.start := by
  obtain ⟨written, _, spelled, isKind, atStop, stopInText, given⟩ := written_of_read inText run
  have escapes : written.Escapes :=
    Decidable.byContradiction fun whole => warns (given.trans (warned_eq_nil whole after))
  obtain ⟨isBare, ended⟩ := spelled.bare_of_escapes escapes
  have atEnd : after = text.length :=
    Nat.le_antisymm stopInText (List.drop_eq_nil_iff.mp ended)
  obtain ⟨kind, value, start, stop⟩ := word
  rw [isBare] at isKind
  simp only at isKind atStop
  subst isKind atStop atEnd
  exact .bare run

/-- The scan that comes to a bare word at the end reads it, keeps the backslash that escapes the
end, and warns of that. -/
theorem scan_bare (inText : position ≤ text.length) (meets : MeetsEnd text position .bare start) :
    ∃ word, scan false (.indexed text) position =
        ⟨[word], none, text.length, warned text.length (text.drop start)⟩ ∧
      (Text.Escapes (text.drop start) → ∃ front, word.value = front ++ [.backslash]) := by
  cases meets with
  | @bare _ value warnings run =>
      obtain ⟨written, same, spelled, isKind, _, _, given⟩ := written_of_read inText run
      have atEnd := Word.read_of_blank false (Source.shows_indexed (Nat.le_refl text.length))
        (by simp [AllBlank])
      rw [List.drop_length, List.append_nil] at same
      rw [same]
      refine ⟨_, ?_, fun escapes =>
        (spelled.spells_of_bare isKind.symm).exists_concat_of_escapes escapes⟩
      rw [scan_of_some run, scan_of_none atEnd, given]
      simp

/-- The scan that comes to a quoted word that is not closed is at fault, and warns of the
backslash that escapes the end. -/
theorem scan_quoted (inText : position ≤ text.length)
    (meets : MeetsEnd text position .quoted start) :
    scan false (.indexed text) position = ⟨[], some (.unterminatedQuote (start + 1)), start,
      warned text.length (text.drop (start + 1))⟩ := by
  cases meets with
  | quoted first opens unclosed =>
      obtain ⟨blanks, char, later, same, blank, notBlank, rfl⟩ := first
      have shown : (Source.indexed text).Shows position (blanks ++ char :: later) :=
        ⟨inText, same⟩
      obtain ⟨startInText, left⟩ := shown.append
      have isQuote : char = .doubleQuote := by
        rw [← List.head?_drop, left] at opens
        exact Option.some.inj opens
      subst isQuote
      have behind : text.drop (position + blanks.length + 1) = later := by
        rw [← List.tail_drop, left, List.tail_cons]
      have width := congrArg List.length left
      rw [List.length_drop, List.length_cons] at width
      rw [behind] at unclosed ⊢
      rw [scan_of_error (Word.read_of_unclosed shown blank unclosed),
        show position + blanks.length + 1 + later.length = text.length by omega]

theorem warnings_scan {kind : WordKind} (inText : position ≤ text.length)
    (meets : MeetsEnd text position kind start) :
    (scan false (.indexed text) position).warnings =
      warned text.length (text.drop (kind.contentsFrom start)) := by
  cases kind with
  | bare =>
      obtain ⟨word, scanned, _⟩ := meets.scan_bare inText
      rw [scanned]
      rfl
  | quoted =>
      rw [meets.scan_quoted inText]
      rfl
  | braced => cases meets

end Word.MeetsEnd

theorem le_of_passes {source : Source}
    (passes : Relation.ReflTransGen source.PassesWord position after) : position ≤ after := by
  induction passes with
  | refl => exact Nat.le_refl position
  | tail passes passesWord inductionHypothesis =>
      obtain ⟨word, warnings, run⟩ := passesWord
      exact Nat.le_trans inductionHypothesis
        (Nat.le_of_lt (Word.consuming_read false _ _ _ _ _ run).1)

theorem in_text_of_passes (inText : position ≤ text.length)
    (passes : Relation.ReflTransGen (Source.indexed text).PassesWord position after) :
    after ≤ text.length := by
  cases passes with
  | refl => exact inText
  | tail passes passesWord =>
      obtain ⟨word, warnings, run⟩ := passesWord
      exact (Word.consuming_read false _ _ _ _ _ run).2

/-- An iteration that goes on has not warned. -/
private theorem scan_of_passes (inText : position ≤ text.length)
    (passes : Relation.ReflTransGen (Source.indexed text).PassesWord position after)
    (more : after < text.length) :
    ∃ words, scan false (.indexed text) position =
      (scan false (.indexed text) after).behind words [] := by
  induction passes using Relation.ReflTransGen.head_induction_on with
  | refl => exact ⟨[], rfl⟩
  | @head position between passesWord passes inductionHypothesis =>
      obtain ⟨word, warnings, run⟩ := passesWord
      have betweenInText := (Word.consuming_read false _ _ _ _ _ run).2
      obtain ⟨words, scanned⟩ := inductionHypothesis betweenInText
      have silent := silent_of_more inText (Nat.lt_of_le_of_lt (le_of_passes passes) more) run
      exact ⟨word :: words, by rw [scan_of_word run, scanned, silent, Scan.behind_behind]; rfl⟩

/-- A lenient scan warns only of the word that it is reading at the end, and only if that escapes
it. -/
private theorem exists_meetsEnd_of_warnings (inText : position ≤ text.length)
    (warns : (scan false (.indexed text) position).warnings ≠ []) :
    ∃ here kind start, Relation.ReflTransGen (Source.indexed text).PassesWord position here ∧
      Word.MeetsEnd text here kind start ∧
        Text.Escapes (text.drop (kind.contentsFrom start)) := by
  -- On the characters left, as every word takes one.
  induction remaining : text.length - position using Nat.strongRecOn generalizing position with
  | ind count inductionHypothesis =>
      have shown := Source.shows_indexed inText
      have escapesOf : ∀ {kind start}, Word.MeetsEnd text position kind start →
          Text.Escapes (text.drop (kind.contentsFrom start)) := by
        intro kind start meets
        rw [meets.warnings_scan inText] at warns
        exact Decidable.byContradiction fun whole => warns (warned_eq_nil whole _)
      rcases run : Word.read false (.indexed text) position with
        ⟨fault | word?, after, warnings⟩
      · obtain ⟨blanks, later, blank, ⟨same, unclosed⟩ | same⟩ :=
          Word.unclosed_of_read_eq_error shown run
        · exact ⟨position, .quoted, _, .refl, .of_unclosed inText same blank unclosed,
            escapesOf (.of_unclosed inText same blank unclosed)⟩
        · rw [same] at shown
          rw [scan_of_error run, ← Word.silent_of_brace shown blank, run] at warns
          exact absurd rfl warns
      cases word? with
      | none =>
          obtain ⟨blank, _⟩ := Word.read_eq_none shown run
          rw [scan_of_none (Word.read_of_blank false shown blank)] at warns
          exact absurd rfl warns
      | some word =>
          by_cases silent : warnings = []
          · have bounds := Word.consuming_read false _ _ _ _ _ run
            have inTextAfter : after ≤ text.length := bounds.2
            rw [scan_of_some run, silent] at warns
            obtain ⟨here, kind, start, passes, meets⟩ :=
              inductionHypothesis (text.length - after) (by omega) inTextAfter warns rfl
            exact ⟨here, kind, start, .head ⟨word, warnings, run⟩ passes, meets⟩
          · have meets := Word.MeetsEnd.of_warning inText run silent
            exact ⟨position, .bare, _, .refl, meets, escapesOf meets⟩

end Iteration

/-! ### Splitting a text -/

namespace Text.EndsInWord

variable {text : Text} {kind : WordKind} {start : Nat}

private theorem exists_scan (ends : text.EndsInWord kind start) :
    ∃ position words, position ≤ text.length ∧ Word.MeetsEnd text position kind start ∧
      scan false (.indexed text) 0 = (scan false (.indexed text) position).behind words [] := by
  obtain ⟨position, passes, meets⟩ := ends
  have inText := in_text_of_passes (Nat.zero_le _) passes
  obtain ⟨words, scanned⟩ := scan_of_passes (Nat.zero_le _) passes (meets.in_front inText)
  exact ⟨position, words, inText, meets, scanned⟩

theorem warnings_split (ends : text.EndsInWord kind start) :
    (split false text).warnings = warned text.length (text.drop (kind.contentsFrom start)) := by
  obtain ⟨position, words, inText, meets, scanned⟩ := ends.exists_scan
  rw [TclWords.warnings_split, scanned, ← meets.warnings_scan inText]
  rfl

theorem split_bare (ends : text.EndsInWord .bare start) :
    ∃ front last, (split false text).result = .ok (front ++ [last]) ∧
      (Text.Escapes (text.drop start) → ∃ kept, last = kept ++ [.backslash]) := by
  obtain ⟨position, words, inText, meets, scanned⟩ := ends.exists_scan
  obtain ⟨word, here, keeps⟩ := meets.scan_bare inText
  refine ⟨words.map Word.value, word.value, ?_, keeps⟩
  rw [split, readValues_apply, scanned, here]
  simp [Scan.behind]

theorem split_quoted (ends : text.EndsInWord .quoted start) :
    (split false text).result = .error (.unterminatedQuote (start + 1)) := by
  obtain ⟨position, words, inText, meets, scanned⟩ := ends.exists_scan
  rw [split, readValues_apply, scanned, meets.scan_quoted inText]
  rfl

end Text.EndsInWord

theorem exists_endsInWord_of_warnings {text : Text} (warns : (split false text).warnings ≠ []) :
    ∃ kind start, text.EndsInWord kind start ∧
      Text.Escapes (text.drop (kind.contentsFrom start)) := by
  rw [warnings_split] at warns
  obtain ⟨position, kind, start, passes, meets, escapes⟩ :=
    exists_meetsEnd_of_warnings (Nat.zero_le _) warns
  exact ⟨kind, start, ⟨position, passes, meets⟩, escapes⟩

/-- **Warnings are exact.** Splitting a text strictly gives no warning, and splitting it leniently
gives at most one, which names the end of the text. It is given exactly if a bare word or a quoted
word that is not closed is being read there, and a run of backslashes of odd length ends it. If
the word is bare, the text is split, and the last word keeps the backslash; if it is quoted, it is
unterminated all the same. A braced word never warns. -/
theorem warnings_are_exact (text : Text) :
    (split true text).warnings = [] ∧
    ((split false text).warnings = [] ∨
      (split false text).warnings = [.keptBackslash text.length]) ∧
    (∀ warning ∈ (split false text).warnings, warning.message =
      Text.ofString s!"Backslash at end of input at {text.length} is kept as is") ∧
    ((split false text).warnings ≠ [] ↔
      ∃ kind start, text.EndsInWord kind start ∧
        Text.Escapes (text.drop (kind.contentsFrom start))) ∧
    (∀ start, text.EndsInWord .bare start →
      ∃ front last, (split false text).result = .ok (front ++ [last]) ∧
        (Text.Escapes (text.drop start) → ∃ kept, last = kept ++ [.backslash])) ∧
    (∀ start, text.EndsInWord .quoted start →
      (split false text).result = .error (.unterminatedQuote (start + 1))) ∧
    ∀ strict source position blanks later,
      Source.Shows source position (blanks ++ .openBrace :: later) → AllBlank blanks →
        (Word.read strict source position).warnings = [] := by
  have strictly : (split true text).warnings = [] := by
    rw [warnings_split]
    exact scan_silent_of_strict (Source.shows_indexed (Nat.zero_le _)).stands
  have atMostOne : (split false text).warnings = [] ∨
      (split false text).warnings = [.keptBackslash text.length] := by
    by_cases silent : (split false text).warnings = []
    · exact Or.inl silent
    · obtain ⟨kind, start, ends, escapes⟩ := exists_endsInWord_of_warnings silent
      exact Or.inr (ends.warnings_split.trans (if_pos escapes))
  refine ⟨strictly, atMostOne, fun warning member => ?_, ⟨exists_endsInWord_of_warnings, ?_⟩,
    fun start ends => ends.split_bare, fun start ends => ends.split_quoted,
    fun strict source position blanks later shown blank => Word.silent_of_brace shown blank⟩
  · rcases atMostOne with silent | one
    · rw [silent] at member
      cases member
    · rw [one, List.mem_singleton] at member
      rw [member]
      rfl
  · rintro ⟨kind, start, ends, escapes⟩
    rw [ends.warnings_split, warned, if_pos escapes]
    exact List.cons_ne_nil _ _

/-- Behind a braced word, a bare word and an unclosed quoted one with three backslashes at their
ends, the last of which escapes the end. A braced word that a backslash ends gives no warning. -/
theorem warnings_are_exact_behind_braces :
    let bare := Text.ofString "\x7ba\x7d b\\\\\\"
    let quoted := Text.ofString "\x7ba\x7d \"\\\\\\"
    bare.EndsInWord .bare 4 ∧ quoted.EndsInWord .quoted 4 ∧
      (split false bare).warnings = [.keptBackslash 8] ∧
      (∃ front last, (split false bare).result = .ok (front ++ [last]) ∧
        (Text.Escapes (bare.drop 4) → ∃ kept, last = kept ++ [.backslash])) ∧
      (split false quoted).warnings = [.keptBackslash 8] ∧
      (split false quoted).result = .error (.unterminatedQuote 5) ∧
      (Word.read false (.stream (Text.ofString " \x7b\\")) 0).warnings = [] := by
  intro bare quoted
  have passesBare : (Source.indexed bare).PassesWord 0 3 :=
    ⟨⟨.braced, Text.ofString "a", 0, 3⟩, [],
      Run.ext (by decide +kernel) (by decide +kernel) (by decide +kernel)⟩
  have passesQuoted : (Source.indexed quoted).PassesWord 0 3 :=
    ⟨⟨.braced, Text.ofString "a", 0, 3⟩, [],
      Run.ext (by decide +kernel) (by decide +kernel) (by decide +kernel)⟩
  have bareRun : Word.read false (.indexed bare) 3 =
      ⟨.ok (some ⟨.bare, Text.ofString "b\\\\", 4, bare.length⟩), bare.length,
        [.keptBackslash 8]⟩ :=
    Run.ext (by decide +kernel) (by decide +kernel) (by decide +kernel)
  have endsBare : bare.EndsInWord .bare 4 := ⟨3, .single passesBare, .bare bareRun⟩
  have unclosed : ∀ index < 3,
      ¬ Text.UnescapedAt (quoted.drop 5) .doubleQuote index := by decide +kernel
  have endsQuoted : quoted.EndsInWord .quoted 4 := by
    refine ⟨3, .single passesQuoted, .quoted ⟨[.space], .doubleQuote,
      Text.ofString "\\\\\\", by decide +kernel, by decide, by decide, rfl⟩ (by decide) ?_⟩
    exact fun index found => unclosed index (Text.lt_length_of_unescapedAt found) found
  obtain ⟨_, atMostOne, _, exactly, splits, _, _⟩ := warnings_are_exact bare
  obtain ⟨_, atMostOneQuoted, _, exactlyQuoted, _, fails, braced⟩ := warnings_are_exact quoted
  refine ⟨endsBare, endsQuoted, ?_, splits 4 endsBare, ?_, fails 4 endsQuoted, ?_⟩
  · exact atMostOne.resolve_left (exactly.mpr ⟨.bare, 4, endsBare, by decide +kernel⟩)
  · exact atMostOneQuoted.resolve_left
      (exactlyQuoted.mpr ⟨.quoted, 4, endsQuoted, by decide +kernel⟩)
  · exact braced false (.stream (Text.ofString " \x7b\\")) 0 [.space] [.backslash] rfl (by decide)

end TclWords
