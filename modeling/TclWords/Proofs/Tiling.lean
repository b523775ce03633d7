import TclWords.Iteration
import TclWords.Proofs.Failure

/-!
The words of a text tile it.

Owns: `Tiles`, words one behind the other with nothing but blanks between them, and
that the scan of a text in memory yields such words, up to its end or up to the first
character of the word at fault. So no character but a blank is left out, and none
belongs to two words.
-/

namespace TclWords

/-- The word stands behind `before` with only blanks between, and ends within the
text; a bare word ends at a blank or at the end of the text. -/
structure Word.Follows (text : Text) (before : Nat) (word : Word) : Prop where
  forward : before ≤ word.start
  gap : AllBlank (text.slice before word.start)
  opens : ∃ char, text[word.start]? = some char ∧ char.isBlank = false
  nonempty : word.start < word.stop
  inText : word.stop ≤ text.length
  bareEnds : word.kind = .bare →
    word.stop = text.length ∨ ∃ char, text[word.stop]? = some char ∧ char.isBlank = true

/-- The words follow each other from `before` on, and the last of them ends at `last`. -/
inductive Tiles (text : Text) : Nat → List Word → Nat → Prop where
  | nil (before : Nat) : Tiles text before [] before
  | cons {before last : Nat} {word : Word} {words : List Word}
      (follows : word.Follows text before) (rest : Tiles text word.stop words last) :
      Tiles text before (word :: words) last

/-- Whether the word takes the character at `index`. -/
def Word.covers (index : Nat) (word : Word) : Bool :=
  word.start ≤ index && index < word.stop

/-! ### Tilings -/

private theorem blank_of_slice {text : Text} {start stop index : Nat} {char : CodePoint}
    (blank : AllBlank (text.slice start stop)) (behind : start ≤ index) (before : index < stop)
    (found : text[index]? = some char) : char.isBlank = true := by
  apply blank
  have notNegative : ¬ ((stop : Int) < 0) := by omega
  simp only [Text.slice, notNegative, if_false, Int.toNat_natCast]
  rw [List.mem_iff_getElem?]
  refine ⟨index - start, ?_⟩
  rw [List.getElem?_take_of_lt (by omega), List.getElem?_drop, ← found]
  congr 1
  omega

namespace Tiles

variable {text : Text} {before last : Nat} {words : List Word}

theorem before_le_last (tiles : Tiles text before words last) :
    before + words.length ≤ last := by
  induction tiles with
  | nil before => exact Nat.le_refl before
  | @cons before last word words follows rest inductionHypothesis =>
      have forward := follows.forward
      have nonempty := follows.nonempty
      rw [List.length_cons]
      omega

theorem last_le_length (tiles : Tiles text before words last) (inText : before ≤ text.length) :
    last ≤ text.length := by
  induction tiles with
  | nil before => exact inText
  | cons follows rest inductionHypothesis => exact inductionHypothesis follows.inText

theorem start_le_length (tiles : Tiles text before words last) :
    ∀ word ∈ words, word.start ≤ text.length := by
  induction tiles with
  | nil before => exact fun word member => absurd member List.not_mem_nil
  | @cons before last word words follows rest inductionHypothesis =>
      have nonempty := follows.nonempty
      have inText := follows.inText
      intro other member
      rcases List.mem_cons.mp member with head | tail
      · rw [head]
        omega
      · exact inductionHypothesis other tail

theorem covers_eq_false (tiles : Tiles text before words last) {index : Nat}
    (front : index < before) : ∀ word ∈ words, word.covers index = false := by
  induction tiles with
  | nil before => exact fun word member => absurd member List.not_mem_nil
  | @cons before last word words follows rest inductionHypothesis =>
      have forward := follows.forward
      have nonempty := follows.nonempty
      intro other member
      rcases List.mem_cons.mp member with head | tail
      · rw [head, Word.covers, decide_eq_false (by omega), Bool.false_and]
      · exact inductionHypothesis (by omega) other tail

/-- Each character of a tiled part is a blank or belongs to exactly one word. -/
theorem countP_covers (tiles : Tiles text before words last) {index : Nat} {char : CodePoint}
    (behind : before ≤ index) (inside : index < last) (found : text[index]? = some char)
    (notBlank : char.isBlank = false) : words.countP (Word.covers index) = 1 := by
  induction tiles with
  | nil before => omega
  | @cons before last word words follows rest inductionHypothesis =>
      have nonempty := follows.nonempty
      have noGap : word.start ≤ index := by
        apply Nat.le_of_not_lt
        intro inGap
        rw [blank_of_slice follows.gap behind inGap found] at notBlank
        cases notBlank
      by_cases inWord : index < word.stop
      · have covered : word.covers index = true := by
          rw [Word.covers, decide_eq_true noGap, decide_eq_true inWord, Bool.and_self]
        have others : words.countP (Word.covers index) = 0 := by
          rw [List.countP_eq_zero]
          intro other member
          rw [rest.covers_eq_false inWord other member]
          exact Bool.false_ne_true
        rw [List.countP_cons_of_pos covered, others]
      · have notCovered : ¬ word.covers index = true := by
          rw [Word.covers, decide_eq_false inWord, Bool.and_false]
          exact Bool.false_ne_true
        rw [List.countP_cons_of_neg notCovered]
        exact inductionHypothesis (by omega) inside

end Tiles

/-! ### Reading the next tile -/

open TclWords.Reader

theorem FirstWordAt.in_text {text : Text} {position start : Nat}
    (first : FirstWordAt position (text.drop position) start) :
    position ≤ start ∧ AllBlank (text.slice position start) ∧
      ∃ char, text[start]? = some char ∧ char.isBlank = false := by
  rcases first with ⟨blanks, char, later, same, blank, notBlank, atStart⟩
  subst atStart
  have notNegative : ¬ (((position + blanks.length : Nat) : Int) < 0) := by omega
  refine ⟨Nat.le_add_right _ _, ?_, char, ?_, notBlank⟩
  · simp only [Text.slice, notNegative, if_false, Int.toNat_natCast, Nat.add_sub_cancel_left]
    rw [same, List.take_left]
    exact blank
  · rw [← List.getElem?_drop, same, List.getElem?_append_right (Nat.le_refl _), Nat.sub_self,
      List.getElem?_cons_zero]

private theorem Bare.step_ne_none (strict : Bool) {source : Source}
    {start position after : Nat} {char : CodePoint} {rest : Text}
    (shown : source.Shows position (char :: rest)) (notBlank : char.isBlank = false)
    {warnings : List Warning} :
    step strict start source position ≠ ⟨.ok none, after, warnings⟩ := by
  intro run
  by_cases isBackslash : char = .backslash
  · subst isBackslash
    rw [step_of_backslash strict shown, map_apply] at run
    rcases escaped : rewindingTo start (Escape.read strict) source (position + 1) with
      ⟨fault | value, stop, given⟩
    · rw [escaped] at run
      cases run
    · rw [escaped] at run
      cases run
  · rw [step_of_plain strict shown notBlank isBackslash] at run
    cases run

/-- A bare word ends where a blank or nothing is shown. -/
theorem Bare.read_ends {strict : Bool} {source : Source} {position after : Nat}
    (stands : source.Stands position) {value : Text} {warnings : List Warning}
    (run : Bare.read strict source position = ⟨.ok value, after, warnings⟩) :
    ∃ rest, source.Shows after rest ∧ ∀ char ∈ rest.head?, char.isBlank = true := by
  have ⟨contents, opened⟩ := stands
  rw [read_of_shows strict opened] at run
  have ended := repeatedly_ends
    (fun here item beyond given standsHere stepRun =>
      (returns_step strict stands).stands_of_ok standsHere stepRun) stands run
  obtain ⟨before, _, ⟨rest, shown⟩, stepRun⟩ := ended
  by_cases ends : ∀ char ∈ rest.head?, char.isBlank = true
  · rw [step_of_end strict shown ends] at stepRun
    cases stepRun
    exact ⟨rest, shown, ends⟩
  · obtain ⟨char, rest, rfl, notBlank⟩ := Text.begins_word ends
    exact absurd stepRun (step_ne_none strict shown notBlank)

/-- The word that is read stands behind the position, and the reader stops at its end. -/
theorem Word.read_follows {strict : Bool} {text : Text} {position after : Nat}
    (inText : position ≤ text.length) {word : Word} {warnings : List Warning}
    (run : Word.read strict (.indexed text) position = ⟨.ok (some word), after, warnings⟩) :
    word.Follows text position ∧ after = word.stop := by
  have shown := Source.shows_indexed inText
  generalize same : text.drop position = rest at shown
  cases outcome strict shown with
  | nothing blank valueRun wordRun =>
      rw [wordRun] at run
      cases run
  | fault blank notBlank atStart bodyRun valueRun wordRun =>
      rw [wordRun] at run
      cases run
  | @word blanks char later value start stop given blank notBlank atStart bodyRun stands
      valueRun wordRun =>
      rw [wordRun] at run
      cases run
      have first : FirstWordAt position (text.drop position) start :=
        ⟨blanks, char, later, same, blank, notBlank, atStart⟩
      rcases first.in_text with ⟨forward, gap, opens⟩
      have shownAtStart : (Source.indexed text).Shows start (char :: later) := by
        rw [atStart]
        exact shown.append
      have bounds := readBody_consumes (readOne_of_cons shownAtStart) notBlank bodyRun
      refine ⟨⟨forward, gap, opens, bounds.1, bounds.2, ?_⟩, rfl⟩
      intro bare
      rcases WordKind.ofOpening_eq_bare_iff.mp bare with ⟨notQuote, notBrace⟩
      rw [readBody_of_bare strict shownAtStart notQuote notBrace] at bodyRun
      rcases Bare.read_ends shownAtStart.stands bodyRun with ⟨rest, ⟨_, left⟩, ends⟩
      have atStop : text[after]? = rest.head? := by
        rw [← left, List.head?_drop]
      cases rest with
      | nil => exact Or.inl (Nat.le_antisymm bounds.2 (List.drop_eq_nil_iff.mp left))
      | cons next rest => exact Or.inr ⟨next, atStop, ends next rfl⟩

/-! ### The scan -/

/-- Where a scan that read up to `last` stops: at the end if only blanks are left, and
else at the first character of the word at fault, where reading a word fails in the
same way. -/
def StopsBehind (strict : Bool) (text : Text) (last : Nat) (scanned : Scan) : Prop :=
  match scanned.fault? with
  | none => AllBlank (text.drop last) ∧ scanned.position = text.length
  | some fault =>
    last ≤ scanned.position ∧ AllBlank (text.slice last scanned.position) ∧
      (∃ char, text[scanned.position]? = some char ∧ char.isBlank = false) ∧
      ∃ warnings, Word.read strict (.indexed text) scanned.position =
        ⟨.error fault, scanned.position, warnings⟩

theorem scan_tiles (strict : Bool) {text : Text} {position : Nat}
    (inText : position ≤ text.length) :
    ∃ last, Tiles text position (scan strict (.indexed text) position).words last ∧
      StopsBehind strict text last (scan strict (.indexed text) position) := by
  -- On the characters left, as every word takes one.
  induction remaining : text.length - position using Nat.strongRecOn
    generalizing position with
  | ind count inductionHypothesis =>
      have shown := Source.shows_indexed inText
      rcases run : Word.read strict (.indexed text) position with
        ⟨fault | word?, after, warnings⟩
      · rcases Word.read_eq_error shown run with ⟨first, again⟩
        rcases first.in_text with ⟨forward, gap, opens⟩
        rw [scan_of_error run]
        exact ⟨position, .nil position, forward, gap, opens, warnings, again⟩
      · rcases word? with _ | word
        · rw [scan_of_none run]
          rcases Word.read_eq_none shown run with ⟨blank, atEnd⟩
          refine ⟨position, .nil position, blank, ?_⟩
          rw [atEnd, List.length_drop]
          exact Nat.add_sub_cancel' inText
        · rcases Word.read_follows inText run with ⟨follows, atStop⟩
          subst atStop
          have forward := follows.forward
          have nonempty := follows.nonempty
          have stopInText := follows.inText
          rcases inductionHypothesis (text.length - word.stop) (by omega) stopInText rfl
            with ⟨last, tiles, stops⟩
          rw [scan_of_some run]
          exact ⟨last, .cons follows tiles, stops⟩

/-- **Lossless segmentation.** A scan of a text ends after at most as many words as there
are characters. Its words tile the text up to where it stops: at the end, or at the first
character of the word at fault. In front of that, a character that is no blank belongs to
exactly one word. -/
theorem scan_segments (strict : Bool) (text : Text) :
    let scanned := scan strict (.indexed text) 0
    scanned.words.length ≤ text.length ∧
      (∃ last, Tiles text 0 scanned.words last ∧ last ≤ text.length ∧
        StopsBehind strict text last scanned) ∧
      ∀ index char, index < scanned.position → text[index]? = some char →
        char.isBlank = false → scanned.words.countP (Word.covers index) = 1 := by
  intro scanned
  rcases scan_tiles strict (Nat.zero_le text.length) with ⟨last, tiles, stops⟩
  have count := tiles.before_le_last
  have lastInText := tiles.last_le_length (Nat.zero_le text.length)
  refine ⟨Nat.le_trans (Nat.le_add_left _ 0) (Nat.le_trans count lastInText),
    ⟨last, tiles, lastInText, stops⟩, ?_⟩
  intro index char inFront found notBlank
  apply tiles.countP_covers (Nat.zero_le index) _ found notBlank
  apply Nat.lt_of_not_le
  intro behind
  have blank : char.isBlank = true := by
    change StopsBehind strict text last scanned at stops
    unfold StopsBehind at stops
    split at stops
    · apply stops.1
      rw [List.mem_iff_getElem?]
      refine ⟨index - last, ?_⟩
      rw [List.getElem?_drop, ← found]
      congr 1
      omega
    · exact blank_of_slice stops.2.1 behind inFront found
  rw [blank] at notBlank
  cases notBlank

end TclWords
