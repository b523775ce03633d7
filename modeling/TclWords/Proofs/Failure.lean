import Mathlib.Control.Monad.Basic
import TclWords.Proofs.Rewind

/-!
Failing is final.

Owns: where each reader stops when a word is at fault, and that a second attempt from
there fails in the same way and stays. The positions are those that the readers
themselves promise: the entry of the reader for the contents of a word and for a
backslash sequence, and the first character of the word for the readers that skip
blanks.
-/

namespace TclWords

open TclWords.Reader

variable {source : Source}

/-! ### Words behind blanks -/

/-- Of the `rest` shown at `position`, the first character that is no blank stands at
`start`. -/
def FirstWordAt (position : Nat) (rest : Text) (start : Nat) : Prop :=
  ∃ blanks char later, rest = blanks ++ char :: later ∧ AllBlank blanks ∧
    char.isBlank = false ∧ start = position + blanks.length

namespace Word

variable {position after : Nat} {rest : Text} {strict : Bool} {fault : Fault}
  {warnings : List Warning}

/-- A word at fault is found at its first character, and once more from there. -/
theorem readValue_eq_error (shown : source.Shows position rest)
    (run : readValue strict source position = ⟨.error fault, after, warnings⟩) :
    FirstWordAt position rest after ∧
      readValue strict source after = ⟨.error fault, after, warnings⟩ := by
  cases outcome strict shown with
  | nothing blank valueRun wordRun =>
      rw [valueRun] at run
      cases run
  | word blank notBlank atStart bodyRun stands valueRun wordRun =>
      rw [valueRun] at run
      cases run
  | @fault blanks char later start found given blank notBlank atStart bodyRun valueRun wordRun =>
      rw [valueRun] at run
      cases run
      subst atStart
      have shownAtStart : source.Shows (position + blanks.length) ([] ++ char :: later) :=
        shown.append
      refine ⟨⟨blanks, char, later, rfl, blank, notBlank, rfl⟩, ?_⟩
      exact readValue_of_word strict shownAtStart
        (fun first member => absurd member List.not_mem_nil) notBlank bodyRun

/-- The two readers of words are at fault together. -/
theorem read_eq_error_iff (shown : source.Shows position rest) :
    read strict source position = ⟨.error fault, after, warnings⟩ ↔
      readValue strict source position = ⟨.error fault, after, warnings⟩ := by
  cases outcome strict shown with
  | nothing blank valueRun wordRun =>
      rw [valueRun, wordRun]
      constructor <;> intro run <;> cases run
  | word blank notBlank atStart bodyRun stands valueRun wordRun =>
      rw [valueRun, wordRun]
      constructor <;> intro run <;> cases run
  | fault blank notBlank atStart bodyRun valueRun wordRun =>
      rw [valueRun, wordRun]
      constructor <;> intro run <;> cases run <;> rfl

theorem read_eq_error (shown : source.Shows position rest)
    (run : read strict source position = ⟨.error fault, after, warnings⟩) :
    FirstWordAt position rest after ∧
      read strict source after = ⟨.error fault, after, warnings⟩ := by
  rw [read_eq_error_iff shown] at run
  rcases readValue_eq_error shown run with ⟨first, again⟩
  refine ⟨first, ?_⟩
  rcases first with ⟨blanks, char, later, same, _, _, atStart⟩
  subst same atStart
  exact (read_eq_error_iff shown.append).mpr again

theorem read_eq_none (shown : source.Shows position rest)
    (run : read strict source position = ⟨.ok none, after, warnings⟩) :
    AllBlank rest ∧ after = position + rest.length := by
  cases outcome strict shown with
  | nothing blank valueRun wordRun =>
      rw [wordRun] at run
      cases run
      exact ⟨blank, rfl⟩
  | word blank notBlank atStart bodyRun stands valueRun wordRun =>
      rw [wordRun] at run
      cases run
  | fault blank notBlank atStart bodyRun valueRun wordRun =>
      rw [wordRun] at run
      cases run

/-! ### Passing words -/

theorem readPast_of_blank (strict : Bool) {char : CodePoint}
    (shown : source.Shows position (char :: rest)) (blank : char.isBlank = true) :
    readPast strict source position = (blankSpan >>= fun _ => pure none) source position := by
  rw [readPast, bind_of_ok (peek_one_of_shows shown), Run.precededBy_nil]
  simp only [List.head?_cons, Option.toList_some, Text.isSingleBlank, blank, if_true]

theorem readPast_of_word (strict : Bool)
    (shown : source.Shows position rest)
    (notBlank : ∀ char ∈ rest.head?, char.isBlank = false) :
    readPast strict source position =
      (readValue strict >>= fun value? => blankSpan >>= fun _ => pure value?)
        source position := by
  have noBlank : Text.isSingleBlank rest.head?.toList = false := by
    cases rest with
    | nil => rfl
    | cons char rest => exact notBlank char rfl
  rw [readPast, bind_of_ok (peek_one_of_shows shown), Run.precededBy_nil]
  simp only [noBlank, Bool.false_eq_true, if_false]

private theorem stands_of_readValue (stands : source.Stands position) {value? : Option Text}
    (run : readValue strict source position = ⟨.ok value?, after, warnings⟩) :
    source.Stands after := by
  rcases stands with ⟨rest, shown⟩
  cases outcome strict shown with
  | nothing blank valueRun wordRun =>
      rw [valueRun] at run
      cases run
      rw [← List.append_nil rest] at shown
      exact shown.append.stands
  | word blank notBlank atStart bodyRun standsAfter valueRun wordRun =>
      rw [valueRun] at run
      cases run
      exact standsAfter
  | fault blank notBlank atStart bodyRun valueRun wordRun =>
      rw [valueRun] at run
      cases run

/-- The word at the position is at fault, and nothing has moved. -/
def FaultHere (strict : Bool) (source : Source) (position : Nat) (fault : Fault)
    (warnings : List Warning) : Prop :=
  (∃ char later, source.Shows position (char :: later) ∧ char.isBlank = false) ∧
    readValue strict source position = ⟨.error fault, position, warnings⟩

theorem readPast_cases (strict : Bool) (stands : source.Stands position) :
    (∃ value? after warnings,
      readPast strict source position = ⟨.ok value?, after, warnings⟩ ∧
        source.Stands after) ∨
    ∃ fault warnings,
      readPast strict source position = ⟨.error fault, position, warnings⟩ ∧
        FaultHere strict source position fault warnings := by
  rcases stands with ⟨rest, shown⟩
  by_cases blank : ∃ char ∈ rest.head?, char.isBlank = true
  · left
    rcases rest with _ | ⟨char, rest⟩
    · rcases blank with ⟨char, member, _⟩
      cases member
    · rcases blank with ⟨head, member, blank⟩
      cases member
      rcases blankSpan_lands shown.stands with ⟨blanks, between, skip, lands⟩
      refine ⟨none, between, [], ?_, lands.stands⟩
      rw [readPast_of_blank strict shown blank, bind_of_ok skip]
      rfl
  · have notBlank : ∀ char ∈ rest.head?, char.isBlank = false := by
      intro char member
      exact Bool.eq_false_iff.mpr fun isBlank => blank ⟨char, member, isBlank⟩
    rw [readPast_of_word strict shown notBlank]
    rcases valueRun : readValue strict source position with ⟨fault | value?, after, warnings⟩
    · right
      rcases readValue_eq_error shown valueRun with
        ⟨⟨blanks, first, later, same, allBlank, firstNotBlank, atFirst⟩, _⟩
      have noBlanks : blanks = [] := by
        cases blanks with
        | nil => rfl
        | cons head blanks =>
            have contradictory := notBlank head (by rw [same]; rfl)
            rw [allBlank head List.mem_cons_self] at contradictory
            cases contradictory
      subst noBlanks same atFirst
      exact ⟨fault, warnings, bind_of_error valueRun, ⟨first, later, shown, firstNotBlank⟩,
        valueRun⟩
    · left
      have standsAfter := stands_of_readValue shown.stands valueRun
      rcases blankSpan_lands standsAfter with ⟨blanks, between, skip, lands⟩
      refine ⟨value?, between, warnings ++ [], ?_, lands.stands⟩
      rw [bind_of_ok valueRun, bind_of_ok skip]
      rfl

/-- The words passed before the one at fault stay passed. -/
theorem readPastMany_eq_error (stands : source.Stands position) {count : Nat}
    (run : readPastMany strict count source position = ⟨.error fault, after, warnings⟩) :
    ∃ passed earlier later, passed < count ∧
      readPastMany strict passed source position = ⟨.ok (), after, earlier⟩ ∧
      FaultHere strict source after fault later := by
  induction count generalizing position warnings with
  | zero => cases run
  | succ count inductionHypothesis =>
      rw [readPastMany] at run
      rcases readPast_cases strict stands with
        ⟨value?, between, earlier, pastRun, standsBetween⟩ | ⟨found, earlier, pastRun, here⟩
      · rw [bind_of_ok pastRun] at run
        rcases restRun : readPastMany strict count source between with ⟨result, last, given⟩
        rw [restRun] at run
        cases run
        rcases inductionHypothesis standsBetween restRun with
          ⟨passed, before, later, fewer, passedRun, here⟩
        refine ⟨passed + 1, earlier ++ before, later, Nat.succ_lt_succ fewer, ?_, here⟩
        rw [readPastMany, bind_of_ok pastRun, passedRun]
        rfl
      · rw [bind_of_error pastRun] at run
        cases run
        exact ⟨0, [], _, Nat.succ_pos count, rfl, here⟩

end Word

/-! ### Failing is final -/

namespace Reader

variable {α : Type} {position : Nat} {reader : Reader α}

/-- Each failure of the reader ends where `Home` admits it, and there the reader fails
again in the same way and stays. -/
def FailsOnlyAt (source : Source) (position : Nat) (Home : Nat → Prop)
    (reader : Reader α) : Prop :=
  ∀ fault, (reader source position).result = .error fault →
    let home := (reader source position).position
    Home home ∧ (reader source home).result = .error fault ∧
      (reader source home).position = home

theorem Returns.failsOnlyAt (returns : Returns source id reader)
    (stands : source.Stands position) :
    FailsOnlyAt source position (· = position) reader := by
  intro fault failed
  rcases returns position stands with ⟨_, _, _, run, _⟩ | ⟨found, warnings, run, _⟩
  · rw [run] at failed
    cases failed
  · rw [run] at failed ⊢
    cases failed
    simp only [id_eq, run, and_self]

/-- A failure that is the same from where it ends. -/
theorem failsOnlyAt_of_again {Home : Nat → Prop}
    (again : ∀ fault after warnings,
      reader source position = ⟨.error fault, after, warnings⟩ →
        Home after ∧ reader source after = ⟨.error fault, after, warnings⟩) :
    FailsOnlyAt source position Home reader := by
  intro fault failed
  rcases run : reader source position with ⟨result, after, warnings⟩
  rw [run] at failed
  simp only at failed
  subst failed
  rcases again fault after warnings run with ⟨atHome, rerun⟩
  simp only [atHome, rerun, and_self]

end Reader

/-- **Failing is atomic.** Every failing read leaves the position where its reader promises,
from where it fails again in the same way: where the reader began, or at the first character
of the word at fault. Moving over several words stops at the start of the one at fault, with
those before it passed. -/
theorem failures_are_atomic (strict : Bool) {position : Nat} {rest : Text}
    (shown : source.Shows position rest) :
    FailsOnlyAt source position (· = position) (Quoted.read strict) ∧
    FailsOnlyAt source position (· = position) Braced.read ∧
    FailsOnlyAt source position (· = position) (Bare.read strict) ∧
    FailsOnlyAt source position (· = position) (Escape.read strict) ∧
    FailsOnlyAt source position (FirstWordAt position rest) (Word.readValue strict) ∧
    FailsOnlyAt source position (FirstWordAt position rest) (Word.read strict) ∧
    FailsOnlyAt source position (· = position) (Word.readPast strict) ∧
    ∀ number fault,
      (Word.moveTo strict number source position).result = .error fault →
        ∃ (passed : Nat) (warnings : List Warning), (passed : Int) < number ∧
          (Word.moveTo strict passed source position).result = .ok () ∧
          (Word.moveTo strict passed source position).position =
            (Word.moveTo strict number source position).position ∧
          Word.FaultHere strict source (Word.moveTo strict number source position).position
            fault warnings := by
  have stands := shown.stands
  refine ⟨(Quoted.returns_read strict).failsOnlyAt stands,
    Braced.returns_read.failsOnlyAt stands,
    (Bare.returns_read strict).failsOnlyAt stands,
    (Escape.returns_read strict).failsOnlyAt stands,
    failsOnlyAt_of_again fun fault after warnings run => Word.readValue_eq_error shown run,
    failsOnlyAt_of_again fun fault after warnings run => Word.read_eq_error shown run,
    failsOnlyAt_of_again ?_, ?_⟩
  · intro fault after warnings run
    rcases Word.readPast_cases strict stands with
      ⟨_, _, _, pastRun, _⟩ | ⟨found, earlier, pastRun, _⟩
    · rw [pastRun] at run
      cases run
    · rw [pastRun] at run
      cases run
      exact ⟨rfl, pastRun⟩
  · intro number fault failed
    rcases run : Word.moveTo strict number source position with ⟨result, after, warnings⟩
    rw [run] at failed
    simp only at failed
    subst failed
    rcases Word.readPastMany_eq_error stands run with
      ⟨passed, earlier, later, fewer, passedRun, here⟩
    have sameCount : Word.moveTo strict passed source position = ⟨.ok (), after, earlier⟩ := by
      rw [Word.moveTo, Int.toNat_natCast]
      exact passedRun
    refine ⟨passed, later, by omega, ?_, ?_, here⟩
    · rw [sameCount]
    · rw [sameCount]

/-- A stream with a quoted word at fault behind a blank: the reader of words and the one
that moves over them both fail at its quote. -/
theorem failures_are_atomic_behind_blank :
    let text := Text.ofString "a b \"c\\q\""
    (Source.stream text).Shows 3 (text.drop 3) ∧
      (Word.read true (.stream text) 3).result =
        .error (.unknownEscape (.ofChar 'q') 7) ∧
      FailsOnlyAt (.stream text) 3 (FirstWordAt 3 (text.drop 3)) (Word.read true) ∧
      (Word.moveTo true 2 (.stream text) 3).result =
        .error (.unknownEscape (.ofChar 'q') 7) ∧
      ∃ (passed : Nat) (warnings : List Warning), (passed : Int) < 2 ∧
        (Word.moveTo true passed (.stream text) 3).result = .ok () ∧
        (Word.moveTo true passed (.stream text) 3).position =
          (Word.moveTo true 2 (.stream text) 3).position ∧
        Word.FaultHere true (.stream text) (Word.moveTo true 2 (.stream text) 3).position
          (.unknownEscape (.ofChar 'q') 7) warnings := by
  intro text
  have shown : (Source.stream text).Shows 3 (text.drop 3) := Source.shows_stream text 3
  have readFails : (Word.read true (.stream text) 3).result =
      .error (.unknownEscape (.ofChar 'q') 7) := by decide +kernel
  have moveFails : (Word.moveTo true 2 (.stream text) 3).result =
      .error (.unknownEscape (.ofChar 'q') 7) := by decide +kernel
  obtain ⟨_, _, _, _, _, readAtomic, _, moveStops⟩ := failures_are_atomic true shown
  exact ⟨shown, readFails, readAtomic, moveFails, moveStops 2 _ moveFails⟩

end TclWords
