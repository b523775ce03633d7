import TclWords.Proofs.Bracing
import TclWords.Proofs.Failure
import TclWords.Proofs.Scanning
import TclWords.Proofs.Spelling.Reading

/-!
Words mean the same wherever they stand.

Owns: how a word is written in front of the text behind it; that `Word.readValue` reads exactly
such words; and what may stand behind a word in place of what did. Only the end of a bare word
depends on it: another character would belong to the word, and so would a space or tab behind a
continued line.
-/

namespace TclWords

open TclWords.Reader

namespace Word

/-- In front of `behind`, a word that is `written` so has the value. -/
inductive Spelled (strict : Bool) (behind : Text) : Text → Text → Prop where
  | quoted {contents value : Text}
      (spells : Spells strict CodePoint.isDoubleQuote (.doubleQuote :: behind) contents value) :
      Spelled strict behind (.doubleQuote :: contents ++ [.doubleQuote]) value
  | braced {contents : Text}
      (first : Braced.FirstCloseAt 1 (contents ++ [.closeBrace]) contents.length) :
      Spelled strict behind (.openBrace :: contents ++ [.closeBrace]) (Braced.folded contents)
  | bare {char : CodePoint} {contents value : Text} (notBlank : char.isBlank = false)
      (notQuote : char ≠ .doubleQuote) (notBrace : char ≠ .openBrace)
      (spells : Spells strict CodePoint.isBlank behind (char :: contents) value)
      (ends : ∀ next ∈ behind.head?, next.isBlank = true) :
      Spelled strict behind (char :: contents) value

/-- The text behind a word leaves it as it is: if the word is bare, a blank stands there or
nothing, and no space or tab if the word ends in a continued line. -/
def Separates (written behind : Text) : Prop :=
  WordKind.ofOpening (written.take 1) = .bare → ∀ next ∈ behind.head?,
    next.isBlank = true ∧ (next ∈ spacesAndTabs → ¬ written.EndsContinued)

instance (written behind : Text) : Decidable (Separates written behind) :=
  inferInstanceAs (Decidable (_ → ∀ next ∈ behind.head?, _))

variable {source : Source} {position start stop : Nat} {strict : Bool} {char : CodePoint}
  {rest later behind written value : Text} {warnings : List Warning}

/-- A bare word is nothing but its contents. -/
theorem Spelled.spells_of_bare (spelled : Spelled strict behind written value)
    (isBare : WordKind.ofOpening (written.take 1) = .bare) :
    Spells strict CodePoint.isBlank behind written value := by
  cases spelled with
  | quoted spells => cases isBare
  | braced first => cases isBare
  | bare notBlank notQuote notBrace spells ends => exact spells

/-! ### Reading what is written -/

private theorem readValue_of_body (shown : source.Shows start (char :: later))
    (notBlank : char.isBlank = false)
    (run : readBody strict start char source (start + 1) = ⟨.ok value, stop, warnings⟩) :
    readValue strict source start = ⟨.ok (some value), stop, warnings⟩ :=
  readValue_of_word strict (shown : source.Shows start ([] ++ char :: later))
    (fun _ member => absurd member List.not_mem_nil) notBlank (rewindingTo_eq_ok_iff.mpr run)

/-- From its first character on a word is read for its value wherever it is shown, and nothing
more is. -/
theorem Spelled.readBody (spelled : Spelled strict behind written value)
    (shown : source.Shows start (written ++ behind)) :
    ∃ char later, written ++ behind = char :: later ∧ written.take 1 = [char] ∧
      char.isBlank = false ∧
      readBody strict start char source (start + 1) =
        ⟨.ok value, start + written.length, warned (start + written.length) written⟩ := by
  cases spelled with
  | @quoted contents _ spells =>
      rw [warned_eq_nil (Text.not_escapes_concat (by decide))]
      rw [List.append_assoc] at shown ⊢
      refine ⟨.doubleQuote, _, rfl, rfl, by decide, ?_⟩
      rw [Word.readBody, if_pos rfl, Quoted.read_of_closed shown.tail spells]
      simp [Nat.add_assoc, Nat.add_comm 1]
  | @braced contents first =>
      rw [warned_eq_nil (Text.not_escapes_concat (by decide))]
      have opened : source.Shows start
          (.openBrace :: (contents ++ [.closeBrace] ++ behind)) := shown
      refine ⟨.openBrace, _, rfl, rfl, by decide, ?_⟩
      rw [Word.readBody, if_neg (by decide), if_pos rfl]
      rcases Braced.read_cases opened.tail with ⟨index, firstHere, run⟩ | ⟨never, _⟩
      · rw [run, firstHere.unique (first.append behind)]
        simp [Nat.add_assoc, Nat.add_comm 1]
      · exact absurd (first.append behind).1 (never _)
  | @bare char contents _ notBlank notQuote notBrace spells ends =>
      refine ⟨char, _, rfl, rfl, notBlank, ?_⟩
      rw [readBody_of_bare strict shown notQuote notBrace]
      exact Bare.read_of_spells shown spells ends

theorem Spelled.readValue (spelled : Spelled strict behind written value)
    (shown : source.Shows start (written ++ behind)) :
    readValue strict source start =
      ⟨.ok (some value), start + written.length, warned (start + written.length) written⟩ := by
  obtain ⟨char, later, same, _, notBlank, run⟩ := spelled.readBody shown
  rw [same] at shown
  exact readValue_of_body shown notBlank run

/-- Behind blanks a word is read of the kind that its first character tells. -/
theorem Spelled.read (spelled : Spelled strict behind written value) {blanks : Text}
    (blank : AllBlank blanks) (shown : source.Shows position (blanks ++ (written ++ behind))) :
    let start := position + blanks.length
    read strict source position =
      ⟨.ok (some ⟨.ofOpening (written.take 1), value, start, start + written.length⟩),
        start + written.length, warned (start + written.length) written⟩ := by
  intro start
  obtain ⟨char, later, same, opening, notBlank, run⟩ := spelled.readBody shown.append
  rw [same] at shown
  rw [read_of_word strict shown blank notBlank (rewindingTo_eq_ok_iff.mpr run), opening]
  rfl

/-- A word by itself is the only one that a scan reads. -/
theorem Spelled.scan_alone (spelled : Spelled strict [] written value)
    (shown : source.Shows start written) :
    scan strict source start =
      ⟨[⟨.ofOpening (written.take 1), value, start, start + written.length⟩], none,
        start + written.length, warned (start + written.length) written⟩ := by
  rw [← List.append_nil written] at shown
  have noBlank : AllBlank [] := fun char member => absurd member List.not_mem_nil
  have wordRun := spelled.read noBlank shown
  rw [List.length_nil, Nat.add_zero] at wordRun
  have ended := scan_of_none (read_of_blank strict shown.append noBlank)
  rw [scan_of_some wordRun, ended]
  simp

theorem Spelled.split_alone (spelled : Spelled strict [] written value) :
    split strict written = ⟨.ok [value], written.length, warned written.length written⟩ := by
  have shown : (Source.indexed written).Shows 0 written := Source.shows_indexed (Nat.zero_le _)
  rw [split, readValues_apply, spelled.scan_alone shown]
  simp

/-! ### Every word that is read is written so -/

private theorem spelled_of_quoted (shown : source.Shows position rest)
    (run : Quoted.read strict source position = ⟨.ok value, stop, warnings⟩) :
    ∃ contents behind, rest = contents ++ .doubleQuote :: behind ∧
      Spells strict CodePoint.isDoubleQuote (.doubleQuote :: behind) contents value := by
  obtain ⟨contents, behind, spelled, rfl, spells, halts⟩ :=
    exists_spells strict CodePoint.isDoubleQuote rest
  cases halts with
  | ended =>
      rw [List.append_nil] at shown
      rw [Quoted.read_of_unclosed shown spells] at run
      cases run
  | @stopped char later notBackslash isStop =>
      have isQuote : char = .doubleQuote := of_decide_eq_true isStop
      subst isQuote
      rw [Quoted.read_of_closed shown spells] at run
      cases run
      exact ⟨contents, later, rfl, spells⟩
  | refused isStrict malformed =>
      subst isStrict
      obtain ⟨fault, fails⟩ := Quoted.read_of_refused shown spells malformed
      rw [fails] at run
      cases run

private theorem spelled_of_bare (shown : source.Shows position rest)
    (run : Bare.read strict source position = ⟨.ok value, stop, warnings⟩) :
    ∃ contents behind, rest = contents ++ behind ∧
      Spells strict CodePoint.isBlank behind contents value ∧
      ∀ next ∈ behind.head?, next.isBlank = true := by
  obtain ⟨contents, behind, spelled, rfl, spells, halts⟩ :=
    exists_spells strict CodePoint.isBlank rest
  have ends : ∀ next ∈ behind.head?, next.isBlank = true := by
    cases halts with
    | ended => simp
    | stopped notBackslash isStop => simpa using isStop
    | refused isStrict malformed =>
        subst isStrict
        obtain ⟨fault, fails⟩ := Bare.read_of_refused shown spells malformed
        rw [fails] at run
        cases run
  rw [Bare.read_of_spells shown spells ends] at run
  cases run
  exact ⟨contents, behind, rfl, spells, ends⟩

private theorem spelled_of_braced (shown : source.Shows position rest)
    (run : Braced.read source position = ⟨.ok value, stop, warnings⟩) :
    ∃ contents behind, rest = contents ++ .closeBrace :: behind ∧
      Braced.FirstCloseAt 1 (contents ++ [.closeBrace]) contents.length ∧
      Braced.folded contents = value := by
  rcases Braced.read_cases shown with ⟨index, first, closes⟩ | ⟨_, _, _, _, fails⟩
  · rw [closes] at run
    cases run
    obtain ⟨inText, isClose⟩ := List.getElem?_eq_some_iff.mp first.1.1.1
    have same : rest = rest.take index ++ .closeBrace :: rest.drop (index + 1) := by
      rw [← isClose, ← List.drop_eq_getElem_cons inText, List.take_append_drop]
    have width : (rest.take index).length = index := List.length_take_of_le (Nat.le_of_lt inText)
    refine ⟨rest.take index, rest.drop (index + 1), same, ?_, rfl⟩
    rw [width]
    rw [same, List.append_cons, Braced.firstCloseAt_append_left (by simp [width])] at first
    exact first
  · rw [fails] at run
    cases run

/-- A word that is read is written so, up to what is left behind it. -/
theorem exists_spelled (shown : source.Shows start (char :: later))
    (notBlank : char.isBlank = false)
    (run : readBody strict start char source (start + 1) = ⟨.ok value, stop, warnings⟩) :
    ∃ written behind, char :: later = written ++ behind ∧
      Spelled strict behind written value := by
  unfold readBody at run
  split at run
  · next isQuote =>
      subst isQuote
      obtain ⟨contents, behind, rfl, spells⟩ := spelled_of_quoted shown.tail run
      exact ⟨_, behind, by simp, .quoted spells⟩
  next notQuote =>
  split at run
  · next isBrace =>
      subst isBrace
      obtain ⟨contents, behind, rfl, first, rfl⟩ := spelled_of_braced shown.tail run
      exact ⟨_, behind, by simp, .braced first⟩
  · next notBrace =>
      rw [bind_of_ok (seek_of_shows shown _), Run.precededBy_nil] at run
      obtain ⟨contents, behind, same, spells, ends⟩ := spelled_of_bare shown run
      rcases contents with _ | ⟨first, contents⟩
      · -- A bare word takes its first character, which is no blank.
        have blank := ends char (by rw [← List.nil_append behind, ← same]; rfl)
        rw [notBlank] at blank
        cases blank
      · obtain ⟨rfl, _⟩ := List.cons.inj same
        exact ⟨_, behind, same, .bare notBlank notQuote notBrace spells ends⟩

theorem exists_spelled_of_readValue (shown : source.Shows position rest)
    (first : FirstWordAt position rest start)
    (run : readValue strict source position = ⟨.ok (some value), stop, warnings⟩) :
    ∃ written behind, Spelled strict behind written value ∧
      rest.drop (start - position) = written ++ behind ∧ stop = start + written.length ∧
        warnings = warned stop written := by
  obtain ⟨blanks, char, later, rfl, blank, notBlank, rfl⟩ := first
  have atStart := shown.append
  rcases bodyRun : rewindingTo (position + blanks.length)
      (readBody strict (position + blanks.length) char) source
        (position + blanks.length + 1) with ⟨fault | found, after, given⟩
  · rw [readValue_of_word strict shown blank notBlank bodyRun] at run
    cases run
  rw [readValue_of_word strict shown blank notBlank bodyRun] at run
  cases run
  have body := rewindingTo_eq_ok_iff.mp bodyRun
  obtain ⟨written, behind, same, spelled⟩ := exists_spelled atStart notBlank body
  have here := readValue_of_body atStart notBlank body
  rw [same] at atStart
  rw [spelled.readValue atStart] at here
  cases here
  refine ⟨written, behind, spelled, ?_, rfl, rfl⟩
  rw [Nat.add_sub_cancel_left, List.drop_left, same]

/-- A word that is read stands behind blanks, written as it is, where it tells. -/
theorem exists_spelled_of_read {word : Word} (shown : source.Shows position rest)
    (run : read strict source position = ⟨.ok (some word), stop, warnings⟩) :
    ∃ blanks written behind, rest = blanks ++ (written ++ behind) ∧ AllBlank blanks ∧
      Spelled strict behind written word.value ∧ word.kind = .ofOpening (written.take 1) ∧
      word.start = position + blanks.length ∧ word.stop = word.start + written.length ∧
      stop = word.stop ∧ warnings = warned stop written := by
  rcases Text.allBlank_or_word rest with blank | ⟨blanks, char, later, rfl, blank, notBlank⟩
  · rw [read_of_blank strict shown blank] at run
    cases run
  have atStart := shown.append
  rcases bodyRun : rewindingTo (position + blanks.length)
      (readBody strict (position + blanks.length) char) source
        (position + blanks.length + 1) with ⟨fault | found, after, given⟩
  · rw [read_of_word strict shown blank notBlank bodyRun] at run
    cases run
  obtain ⟨written, behind, same, spelled⟩ :=
    exists_spelled atStart notBlank (rewindingTo_eq_ok_iff.mp bodyRun)
  rw [same] at shown
  rw [spelled.read blank shown] at run
  cases run
  exact ⟨blanks, written, behind, by rw [same], blank, spelled, rfl, rfl, rfl, rfl, rfl⟩

/-! ### Other surroundings -/

/-- Something else may stand behind a word if it is separated from it. -/
theorem Spelled.in_front_of (spelled : Spelled strict behind written value) {other : Text}
    (dangles : written.Escapes → other = []) (separates : Separates written other) :
    Spelled strict other written value := by
  cases spelled with
  | quoted spells =>
      have alone : LeavesAlone _ (.doubleQuote :: other) :=
        { dangles := fun escapes => absurd escapes (spells.not_escapes (List.cons_ne_nil _ _))
          symbol := by
            rintro next ⟨⟩
            decide
          unswallowed := by
            rintro next ⟨⟩ blank
            exact absurd blank (by decide) }
      exact .quoted (spells.in_front_of alone)
  | braced first => exact .braced first
  | @bare char contents _ notBlank notQuote notBrace spells ends =>
      have apart := separates (WordKind.ofOpening_eq_bare_iff.mpr ⟨notQuote, notBrace⟩)
      refine .bare notBlank notQuote notBrace (spells.in_front_of ⟨dangles, ?_, ?_⟩)
        fun next isNext => (apart next isNext).1
      · exact fun next isNext => CodePoint.isAlphanumeric_of_isBlank (apart next isNext).1
      · exact fun next isNext => (apart next isNext).2

end Word

/-- **Words stand alone.** A word that was read without a warning is read in the same way
wherever it is written again, with any text in front of it and any that separates it behind. By
itself every word is read in the same way, and all of it is; the warning about a backslash that
ends the input is then given again. -/
theorem words_stand_alone {source : Source} {position start stop : Nat} {strict : Bool}
    {rest value : Text} {warnings : List Warning} (shown : source.Shows position rest)
    (first : FirstWordAt position rest start)
    (run : Word.readValue strict source position = ⟨.ok (some value), stop, warnings⟩) :
    let written := (rest.drop (start - position)).take (stop - start)
    (warnings = [] → ∀ other here behind, Source.Shows other here (written ++ behind) →
      Word.Separates written behind →
        Word.readValue strict other here = ⟨.ok (some value), here + written.length, []⟩) ∧
    warnings = warned stop written ∧
    ∀ other here, Source.Shows other here written →
      Word.readValue strict other here =
        ⟨.ok (some value), here + written.length, warned (here + written.length) written⟩ := by
  intro written
  obtain ⟨text, behind, spelled, same, stops, given⟩ :=
    Word.exists_spelled_of_readValue shown first run
  have isText : written = text := by
    show (rest.drop (start - position)).take (stop - start) = text
    rw [same, stops, Nat.add_sub_cancel_left, List.take_left]
  rw [isText]
  refine ⟨fun silent other here behind shownOther separates => ?_, given,
    fun other here shownOther => ?_⟩
  · have whole : ¬ text.Escapes := fun escapes => by
      rw [silent, warned, if_pos escapes] at given
      cases given
    have again := spelled.in_front_of (fun escapes => absurd escapes whole) separates
    rw [again.readValue shownOther, warned_eq_nil whole]
  · rw [← List.append_nil text] at shownOther
    have byItself := spelled.in_front_of (fun _ => rfl) (fun _ _ member => by cases member)
    exact byItself.readValue shownOther

/-- A word with a number at its end, written again in front of a line end and a digit, and a word
with a backslash that ends the input, read again by itself. -/
theorem words_stand_alone_number_and_backslash :
    let text := Text.ofString "a b\\x41 c\\"
    Word.readValue true (.stream text) 1 = ⟨.ok (some (Text.ofString "bA")), 7, []⟩ ∧
      Word.readValue true (.indexed (Text.ofString "\x7bx\x7d b\\x41\n4")) 4 =
        ⟨.ok (some (Text.ofString "bA")), 9, []⟩ ∧
      Word.readValue false (.stream text) 7 =
        ⟨.ok (some (Text.ofString "c\\")), 10, [.keptBackslash 10]⟩ ∧
      Word.readValue false (.indexed (Text.ofString "c\\")) 0 =
        ⟨.ok (some (Text.ofString "c\\")), 2, [.keptBackslash 2]⟩ := by
  intro text
  have numberRun : Word.readValue true (.stream text) 1 =
      ⟨.ok (some (Text.ofString "bA")), 7, []⟩ :=
    Run.ext (by decide +kernel) (by decide +kernel) (by decide +kernel)
  have backslashRun : Word.readValue false (.stream text) 7 =
      ⟨.ok (some (Text.ofString "c\\")), 10, [.keptBackslash 10]⟩ :=
    Run.ext (by decide +kernel) (by decide +kernel) (by decide +kernel)
  have firstNumber : FirstWordAt 1 (text.drop 1) 2 :=
    ⟨[.space], .ofChar 'b', Text.ofString "\\x41 c\\", by decide, by decide, by decide, rfl⟩
  have firstBackslash : FirstWordAt 7 (text.drop 7) 8 :=
    ⟨[.space], .ofChar 'c', Text.ofString "\\", by decide, by decide, by decide, rfl⟩
  obtain ⟨elsewhere, _, _⟩ :=
    words_stand_alone (Source.shows_stream text 1) firstNumber numberRun
  obtain ⟨_, _, byItself⟩ :=
    words_stand_alone (Source.shows_stream text 7) firstBackslash backslashRun
  refine ⟨numberRun, ?_, backslashRun, ?_⟩
  · exact elsewhere rfl (.indexed (Text.ofString "\x7bx\x7d b\\x41\n4")) 4
      (Text.ofString "\n4") ⟨by decide, by decide⟩ (by decide)
  · exact byItself (.indexed (Text.ofString "c\\")) 0 ⟨by decide, by decide⟩

end TclWords
