import TclWords.Proofs.Failure

/-!
The kind of a word tells how it was read.

Owns: `Word.ReadByKind`, by which the first character of a word decides on its kind, and the
reader of that kind gives its value and stops at its end; and that the reader of words and the
reader of values are two views of one scan. They come to the same end, fault, position and
warnings from every state, and a word that one of them tells about has the value that the other
one gives.
-/

namespace TclWords

open TclWords.Reader

namespace Word

/-- The word is of the kind that its first character tells, and the reader of that kind gives
its value and stops at its end. -/
inductive ReadByKind (strict : Bool) (source : Source) (word : Word) (warnings : List Warning) :
    CodePoint → Prop where
  | quoted (isQuoted : word.kind = .quoted)
      (contents : Quoted.read strict source (word.start + 1) =
        ⟨.ok word.value, word.stop, warnings⟩) :
      ReadByKind strict source word warnings .doubleQuote
  | braced (isBraced : word.kind = .braced)
      (contents : Braced.read source (word.start + 1) = ⟨.ok word.value, word.stop, warnings⟩) :
      ReadByKind strict source word warnings .openBrace
  | bare {char : CodePoint} (notQuote : char ≠ .doubleQuote) (notBrace : char ≠ .openBrace)
      (isBare : word.kind = .bare)
      (contents : Bare.read strict source word.start = ⟨.ok word.value, word.stop, warnings⟩) :
      ReadByKind strict source word warnings char

/-- The word stands behind the blanks that the `rest` shown at `position` begins with, and was
read by its kind. -/
def ReadFrom (strict : Bool) (source : Source) (position : Nat) (rest : Text) (word : Word)
    (warnings : List Warning) : Prop :=
  ∃ blanks char later, rest = blanks ++ char :: later ∧ AllBlank blanks ∧ char.isBlank = false ∧
    word.start = position + blanks.length ∧ word.ReadByKind strict source warnings char

/-- What the reader of words and the reader of values come to from one state. -/
inductive Views (strict : Bool) (source : Source) (position : Nat) (rest : Text) :
    Run (Option Word) → Run (Option Text) → Prop where
  | nothing (after : Nat) (warnings : List Warning) :
      Views strict source position rest ⟨.ok none, after, warnings⟩ ⟨.ok none, after, warnings⟩
  | fault (fault : Fault) (after : Nat) (warnings : List Warning) :
      Views strict source position rest ⟨.error fault, after, warnings⟩
        ⟨.error fault, after, warnings⟩
  | word {word : Word} {warnings : List Warning}
      (readFrom : word.ReadFrom strict source position rest warnings) :
      Views strict source position rest ⟨.ok (some word), word.stop, warnings⟩
        ⟨.ok (some word.value), word.stop, warnings⟩

variable {source : Source} {position after : Nat} {rest later : Text} {strict : Bool}
  {char : CodePoint} {warnings : List Warning}

/-- The rest of a word is read by the reader of the kind that the first character tells. -/
theorem readByKind_of_body {value : Text} {start stop : Nat}
    (shown : source.Shows start (char :: later))
    (run : readBody strict start char source (start + 1) = ⟨.ok value, stop, warnings⟩) :
    ReadByKind strict source ⟨.ofOpening [char], value, start, stop⟩ warnings char := by
  unfold readBody at run
  by_cases isQuote : char = .doubleQuote
  · rw [if_pos isQuote] at run
    subst isQuote
    exact .quoted rfl run
  rw [if_neg isQuote] at run
  by_cases isBrace : char = .openBrace
  · rw [if_pos isBrace] at run
    subst isBrace
    exact .braced rfl run
  · rw [if_neg isBrace, bind_of_ok (seek_of_shows shown _), Run.precededBy_nil] at run
    exact .bare isQuote isBrace (WordKind.ofOpening_eq_bare_iff.mpr ⟨isQuote, isBrace⟩) run

/-- A word that is read stands behind the blanks and was read by its kind. -/
theorem read_eq_some (shown : source.Shows position rest) {word : Word}
    (run : read strict source position = ⟨.ok (some word), after, warnings⟩) :
    after = word.stop ∧ word.ReadFrom strict source position rest warnings := by
  cases outcome strict shown with
  | nothing blank valueRun wordRun =>
      rw [wordRun] at run
      cases run
  | @word blanks char later value start stop given blank notBlank atStart bodyRun stands
      valueRun wordRun =>
      rw [wordRun] at run
      cases run
      have opened : source.Shows start (char :: later) := atStart ▸ shown.append
      exact ⟨rfl, blanks, char, later, rfl, blank, notBlank, atStart,
        readByKind_of_body opened bodyRun⟩
  | fault blank notBlank atStart bodyRun valueRun wordRun =>
      rw [wordRun] at run
      cases run

/-- The two readers of words give the same value. -/
theorem value_read (strict : Bool) (stands : source.Stands position) :
    (Option.map Word.value <$> read strict) source position =
      readValue strict source position := by
  rcases stands with ⟨rest, shown⟩
  rw [map_apply]
  cases outcome strict shown with
  | nothing blank valueRun wordRun =>
      rw [valueRun, wordRun]
      rfl
  | word blank notBlank atStart bodyRun standsBehind valueRun wordRun =>
      rw [valueRun, wordRun]
      rfl
  | fault blank notBlank atStart bodyRun valueRun wordRun =>
      rw [valueRun, wordRun]
      rfl

end Word

/-- **Words and values are two views of one scan.** From every state the reader of words and the
reader of values both find nothing, or fail in the same way, or both read one word, with the same
position and the same warnings behind it. The word begins at the first character that is no
blank, which tells its kind, and it is the reader of that kind that gave its value and stopped at
its end. -/
theorem words_and_values_agree (strict : Bool) {source : Source} {position : Nat} {rest : Text}
    (shown : source.Shows position rest) :
    Word.Views strict source position rest (Word.read strict source position)
      (Word.readValue strict source position) := by
  have sameValue := Word.value_read strict shown.stands
  rw [map_apply] at sameValue
  rw [← sameValue]
  rcases run : Word.read strict source position with ⟨fault | _ | word, after, warnings⟩
  · exact .fault fault after warnings
  · exact .nothing after warnings
  · obtain ⟨atStop, readFrom⟩ := Word.read_eq_some shown run
    subst atStop
    exact .word readFrom

/-- A quoted word behind a blank, and a braced one that touches it. -/
theorem words_and_values_agree_touching :
    let text := Text.ofString " \"a\\\"\"\x7bb c\x7d"
    (Source.stream text).Shows 0 text ∧
      Word.Views true (.stream text) 0 text (Word.read true (.stream text) 0)
        (Word.readValue true (.stream text) 0) ∧
      Word.read true (.stream text) 0 =
        ⟨.ok (some ⟨.quoted, Text.ofString "a\"", 1, 6⟩), 6, []⟩ ∧
      Quoted.read true (.stream text) 2 = ⟨.ok (Text.ofString "a\""), 6, []⟩ ∧
      Word.Views true (.stream text) 6 (text.drop 6) (Word.read true (.stream text) 6)
        (Word.readValue true (.stream text) 6) ∧
      Word.readValue true (.stream text) 6 = ⟨.ok (some (Text.ofString "b c")), 11, []⟩ := by
  intro text
  have shown : (Source.stream text).Shows 0 text := Source.shows_stream text 0
  have quotedRun : Word.read true (.stream text) 0 =
      ⟨.ok (some ⟨.quoted, Text.ofString "a\"", 1, 6⟩), 6, []⟩ :=
    Run.ext (by decide +kernel) (by decide +kernel) (by decide +kernel)
  have contentsRun : Quoted.read true (.stream text) 2 = ⟨.ok (Text.ofString "a\""), 6, []⟩ :=
    Run.ext (by decide +kernel) (by decide +kernel) (by decide +kernel)
  have bracedRun : Word.readValue true (.stream text) 6 =
      ⟨.ok (some (Text.ofString "b c")), 11, []⟩ :=
    Run.ext (by decide +kernel) (by decide +kernel) (by decide +kernel)
  exact ⟨shown, words_and_values_agree true shown, quotedRun, contentsRun,
    words_and_values_agree true (Source.shows_stream text 6), bracedRun⟩

end TclWords
