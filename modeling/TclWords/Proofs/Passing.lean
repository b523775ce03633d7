import TclWords.Proofs.Failure
import TclWords.Proofs.Scanning

/-!
Moving over words by their number.

Owns: what one move comes to at the first character of a word, and at blanks; and where a move
over any number of words arrives, which is told by the words that a scan finds from the same
place: at what follows the last word passed, at the end, or at the word at fault. Moves add up.
-/

namespace TclWords

open TclWords.Reader

namespace Word

variable {source : Source} {position : Nat} {rest : Text} {strict : Bool}

/-! ### One move -/

/-- What one move comes to from the first character of a word, or from the end. -/
inductive PastOutcome (strict : Bool) (source : Source) (position : Nat) (rest : Text) :
    Run (Option Text) → Prop where
  | ended (nothing : rest = []) : PastOutcome strict source position rest ⟨.ok none, position, []⟩
  | passed {word : Word} {landed : Nat} {warnings : List Warning}
      (wordRun : read strict source position = ⟨.ok (some word), word.stop, warnings⟩)
      (lands : source.LandsAt word.stop landed) :
      PastOutcome strict source position rest ⟨.ok (some word.value), landed, warnings⟩
  | failed {fault : Fault} {warnings : List Warning}
      (wordRun : read strict source position = ⟨.error fault, position, warnings⟩)
      (here : FaultHere strict source position fault warnings) :
      PastOutcome strict source position rest ⟨.error fault, position, warnings⟩

/-- No blanks stand in front of a word that begins here. -/
private theorem eq_nil_of_atWord {blanks later : Text} (blank : AllBlank blanks)
    (atWord : ∀ char ∈ (blanks ++ later).head?, char.isBlank = false) : blanks = [] := by
  cases blanks with
  | nil => rfl
  | cons char blanks => exact absurd List.mem_cons_self (blank.notMem (atWord char rfl))

/-- At the end nothing moves. -/
theorem readPast_of_nil (strict : Bool) (shown : source.Shows position []) :
    readPast strict source position = ⟨.ok none, position, []⟩ := by
  have noWord : readValue strict source position = ⟨.ok none, position, []⟩ :=
    readValue_of_blank strict shown (by simp [AllBlank])
  have skip : blankSpan source position = ⟨.ok [], position, []⟩ := blankSpan_of_shows shown
  rw [readPast_of_word strict shown (by simp), bind_of_ok noWord, bind_of_ok skip]
  rfl

theorem readPast_outcome (strict : Bool) (shown : source.Shows position rest)
    (atWord : ∀ char ∈ rest.head?, char.isBlank = false) :
    PastOutcome strict source position rest (readPast strict source position) := by
  have moves := readPast_of_word strict shown atWord
  cases outcome strict shown with
  | nothing blank valueRun wordRun =>
      have nothing : rest = [] := eq_nil_of_atWord blank (List.append_nil rest ▸ atWord)
      subst nothing
      rw [readPast_of_nil strict shown]
      exact .ended rfl
  | @word blanks char later value start stop warnings blank notBlank atStart bodyRun stands
      valueRun wordRun =>
      obtain ⟨passed, landed, skip, lands⟩ := blankSpan_lands stands
      have moved : readPast strict source position = ⟨.ok (some value), landed, warnings⟩ := by
        rw [moves, bind_of_ok valueRun, bind_of_ok skip]
        exact Run.ext rfl rfl (by simp [Run.precededBy, pure_apply])
      rw [moved]
      exact .passed wordRun lands
  | @fault blanks char later start found warnings blank notBlank atStart bodyRun valueRun
      wordRun =>
      have noBlanks := eq_nil_of_atWord blank atWord
      subst noBlanks atStart
      rw [moves, bind_of_error valueRun]
      exact .failed wordRun ⟨⟨char, later, shown, notBlank⟩, valueRun⟩

/-! ### Many moves -/

/-- Where a move over `number` words arrives that starts at the first character of a word, or at
the end, where `scanned` are the words that are left and `rest` is shown. -/
inductive Arrives (strict : Bool) (source : Source) (position : Nat) (rest : Text)
    (scanned : Scan) (number : Int) : Run Unit → Prop where
  | stays (noMove : number ≤ 0) :
      Arrives strict source position rest scanned number ⟨.ok (), position, []⟩
  | behind {index landed : Nat} {word : Word} {warnings : List Warning}
      (isNumber : number = index + 1) (isWord : scanned.words[index]? = some word)
      (lands : source.LandsAt word.stop landed)
      (leaves : scanned =
        (scan strict source landed).behind (scanned.words.take (index + 1)) warnings) :
      Arrives strict source position rest scanned number ⟨.ok (), landed, warnings⟩
  | atEnd (beyond : scanned.words.length < number) (noFault : scanned.fault? = none) :
      Arrives strict source position rest scanned number
        ⟨.ok (), position + rest.length, scanned.warnings⟩
  | atFault {fault : Fault} {later : List Warning} (beyond : scanned.words.length < number)
      (isFault : scanned.fault? = some fault)
      (here : FaultHere strict source scanned.position fault later) :
      Arrives strict source position rest scanned number
        ⟨.error fault, scanned.position, scanned.warnings⟩

theorem readPastMany_of_nil (strict : Bool) (shown : source.Shows position []) (count : Nat) :
    readPastMany strict count source position = ⟨.ok (), position, []⟩ := by
  induction count with
  | zero => rfl
  | succ count inductionHypothesis =>
      rw [readPastMany, bind_of_ok (readPast_of_nil strict shown), inductionHypothesis]
      rfl

/-- A move that goes on behind a word passes one word more. -/
theorem Arrives.behind_word {word : Word} {landed : Nat} {left : Text} {warnings : List Warning}
    {count : Nat} {run : Run Unit} (lands : source.LandsAt word.stop landed)
    (sameEnd : landed + left.length = position + rest.length)
    (arrives : Arrives strict source landed left (scan strict source landed) count run) :
    Arrives strict source position rest ((scan strict source landed).behind [word] warnings)
      (count + 1 : Nat) (run.precededBy warnings) := by
  cases arrives with
  | stays noMove =>
      have isNumber : ((count + 1 : Nat) : Int) = (0 : Nat) + 1 := by omega
      have firstPassed : (scan strict source landed).behind [word] warnings =
          (scan strict source landed).behind
            (((scan strict source landed).behind [word] warnings).words.take (0 + 1))
              (warnings ++ []) := by
        simp [Scan.behind]
      exact .behind isNumber rfl lands firstPassed
  | @behind index last found later isNumber isWord landsLater leaves =>
      have isNext : ((count + 1 : Nat) : Int) = (index + 1 : Nat) + 1 := by omega
      have passes := congrArg (Scan.behind [word] warnings) leaves
      rw [Scan.behind_behind] at passes
      exact .behind isNext isWord landsLater passes
  | atEnd beyond noFault =>
      have beyondNext : ((word :: (scan strict source landed).words).length : Int) <
          (count + 1 : Nat) := by
        rw [List.length_cons]
        omega
      have arrived : Arrives strict source position rest
          ((scan strict source landed).behind [word] warnings) (count + 1 : Nat) _ :=
        .atEnd beyondNext noFault
      rw [sameEnd]
      exact arrived
  | atFault beyond isFault here =>
      have beyondNext : ((word :: (scan strict source landed).words).length : Int) <
          (count + 1 : Nat) := by
        rw [List.length_cons]
        omega
      exact .atFault beyondNext isFault here

theorem readPastMany_arrives (strict : Bool) (shown : source.Shows position rest)
    (atWord : ∀ char ∈ rest.head?, char.isBlank = false) (count : Nat) :
    Arrives strict source position rest (scan strict source position) count
      (readPastMany strict count source position) := by
  induction count generalizing position rest with
  | zero => exact .stays (Int.le_refl 0)
  | succ count inductionHypothesis =>
      have moved := readPast_outcome strict shown atWord
      rcases pastRun : readPast strict source position with ⟨result, landed, warnings⟩
      rw [pastRun] at moved
      rw [readPastMany]
      cases moved with
      | ended nothing =>
          subst nothing
          have noWord : read strict source position = ⟨.ok none, position, []⟩ :=
            read_of_blank strict shown (by simp [AllBlank])
          rw [bind_of_ok pastRun, readPastMany_of_nil strict shown, scan_of_none noWord]
          exact .atEnd (by simp) rfl
      | @passed word _ _ wordRun lands =>
          have passes := scan_of_word wordRun
          rw [scan_of_lands strict lands] at passes
          have bounds := consuming_read strict source position word word.stop _ wordRun
          obtain ⟨blanks, left, shownBehind, _, atNext, atLanded⟩ := id lands
          have shownLanded : source.Shows landed left := atLanded ▸ shownBehind.append
          have sameEnd : landed + left.length = position + rest.length := by
            have width := shown.length_eq
            have widthBehind := shownBehind.length_eq
            rw [List.length_append] at widthBehind
            omega
          rw [bind_of_ok pastRun, passes]
          exact (inductionHypothesis shownLanded atNext).behind_word lands sameEnd
      | failed wordRun here =>
          rw [bind_of_error pastRun, scan_of_error wordRun]
          exact .atFault (by simp) rfl here

theorem moveTo_arrives (strict : Bool) (shown : source.Shows position rest)
    (atWord : ∀ char ∈ rest.head?, char.isBlank = false) (number : Int) :
    Arrives strict source position rest (scan strict source position) number
      (moveTo strict number source position) := by
  by_cases noMove : number ≤ 0
  · rw [moveTo, Int.toNat_of_nonpos noMove]
    exact .stays noMove
  · have arrives := readPastMany_arrives strict shown atWord number.toNat
    rwa [Int.toNat_of_nonneg (by omega)] at arrives

/-! ### Moves in sequence -/

/-- From blanks, the first move passes them only. -/
theorem moveTo_of_blank (strict : Bool) {char : CodePoint}
    (shown : source.Shows position (char :: rest)) (blank : char.isBlank = true) {number : Int}
    (moves : 1 ≤ number) :
    moveTo strict number source position =
      (blankSpan >>= fun _ => moveTo strict (number - 1)) source position := by
  obtain ⟨blanks, landed, skip, _⟩ := blankSpan_lands shown.stands
  have pastBlanks : readPast strict source position = ⟨.ok none, landed, []⟩ := by
    rw [readPast_of_blank strict shown blank, bind_of_ok skip]
    rfl
  have isNext : number.toNat = (number - 1).toNat + 1 := by omega
  rw [moveTo, isNext, readPastMany, bind_of_ok pastBlanks, bind_of_ok skip]
  rfl

theorem readPastMany_add (strict : Bool) (first second : Nat) :
    readPastMany strict (first + second) =
      readPastMany strict first >>= fun _ => readPastMany strict second := by
  induction first with
  | zero => simp [readPastMany]
  | succ first inductionHypothesis =>
      rw [Nat.succ_add, readPastMany, readPastMany, inductionHypothesis]
      simp only [bind_assoc]

theorem moveTo_add (strict : Bool) {first second : Int} (notBack : 0 ≤ first)
    (notBackLater : 0 ≤ second) :
    moveTo strict (first + second) = moveTo strict first >>= fun _ => moveTo strict second := by
  rw [moveTo, Int.toNat_add notBack notBackLater, readPastMany_add]
  rfl

end Word

/-- **Moves arrive at words.** From the first character of a word, or from the end, a move over
any number of words arrives where the words that a scan finds from there say: behind the last
word passed and the blanks that follow it, or else at the end, or with the fault of the scan at
the start of the word at fault. From blanks the first move passes them and nothing else. A move
over two numbers of words is the one after the other. -/
theorem moves_arrive_at_words (strict : Bool) {source : Source} {position : Nat} {rest : Text}
    (shown : source.Shows position rest) :
    ((∀ char ∈ rest.head?, char.isBlank = false) → ∀ number : Int,
      Word.Arrives strict source position rest (scan strict source position) number
        (Word.moveTo strict number source position)) ∧
    ((∃ char ∈ rest.head?, char.isBlank = true) → ∀ number : Int, 1 ≤ number →
      Word.moveTo strict number source position =
        (blankSpan >>= fun _ => Word.moveTo strict (number - 1)) source position) ∧
    ∀ first second : Int, 0 ≤ first → 0 ≤ second →
      Word.moveTo strict (first + second) =
        Word.moveTo strict first >>= fun _ => Word.moveTo strict second := by
  refine ⟨fun atWord number => Word.moveTo_arrives strict shown atWord number, ?_,
    fun first second notBack notBackLater => Word.moveTo_add strict notBack notBackLater⟩
  intro onBlank number moves
  obtain ⟨char, isFirst, blank⟩ := onBlank
  cases rest with
  | nil => cases isFirst
  | cons first rest =>
      cases isFirst
      exact Word.moveTo_of_blank strict shown blank moves

/-- Two words that touch, and an open quote behind them: a move over both of them arrives at the
quote, and a further one fails there. From the blank behind the first word it takes one move
more. -/
theorem moves_arrive_at_words_in_front_of_fault :
    let text := Text.ofString "a \x7bb\x7d\"c\" \"d"
    let scanned := scan true (.stream text) 2
    (Source.stream text).Shows 2 (text.drop 2) ∧
      scanned.words.map Word.value = [Text.ofString "b", Text.ofString "c"] ∧
      scanned.fault? = some (.unterminatedQuote 10) ∧
      Word.Arrives true (.stream text) 2 (text.drop 2) scanned 2
        (Word.moveTo true 2 (.stream text) 2) ∧
      Word.moveTo true 2 (.stream text) 2 = ⟨.ok (), 9, []⟩ ∧
      Word.Arrives true (.stream text) 2 (text.drop 2) scanned 3
        (Word.moveTo true 3 (.stream text) 2) ∧
      Word.moveTo true 3 (.stream text) 2 = ⟨.error (.unterminatedQuote 10), 9, []⟩ ∧
      Word.moveTo true 3 (.stream text) 1 =
        (blankSpan >>= fun _ => Word.moveTo true (3 - 1)) (.stream text) 1 ∧
      Word.moveTo true (1 + 2) = Word.moveTo true 1 >>= fun _ => Word.moveTo true 2 := by
  intro text scanned
  have shown : (Source.stream text).Shows 2 (text.drop 2) := Source.shows_stream text 2
  have atWord : ∀ char ∈ (text.drop 2).head?, char.isBlank = false := by decide
  have onBlank : ∃ char ∈ (text.drop 1).head?, char.isBlank = true := by decide
  have values : scanned.words.map Word.value = [Text.ofString "b", Text.ofString "c"] := by
    decide +kernel
  have failed : scanned.fault? = some (.unterminatedQuote 10) := by decide +kernel
  have both : Word.moveTo true 2 (.stream text) 2 = ⟨.ok (), 9, []⟩ :=
    Run.ext (by decide +kernel) (by decide +kernel) (by decide +kernel)
  have beyond : Word.moveTo true 3 (.stream text) 2 =
      ⟨.error (.unterminatedQuote 10), 9, []⟩ :=
    Run.ext (by decide +kernel) (by decide +kernel) (by decide +kernel)
  obtain ⟨arrives, _, adds⟩ := moves_arrive_at_words true shown
  obtain ⟨_, passesBlanks, _⟩ := moves_arrive_at_words true (Source.shows_stream text 1)
  exact ⟨shown, values, failed, arrives atWord 2, both, arrives atWord 3, beyond,
    passesBlanks onBlank 3 (by decide), adds 1 2 (by decide) (by decide)⟩

end TclWords
