import TclWords.Session
import TclWords.Proofs.Kinds
import TclWords.Proofs.Scanning

/-!
Readers that share a source lose no word and give none twice.

Owns: the steps of a session that are calls of such readers, directly or through any number of
iterators; `ScansTo`, by which a scan from one position passes some words and is then the scan
from another one; and that every step is such a passage over at most one word, which it gives.
So whatever was called, the words given so far and those left to read are the words of the
source.
-/

namespace TclWords

/-! ### Calls on a shared source -/

/-- How many iterators the step makes. -/
def Step.makes : Step → Nat
  | .iterate _ => 1
  | _ => 0

/-- The step calls a reader that shares its source with others, all of them equally strict. A
word is taken from one of the `made` iterators there are. -/
def Step.Shares (strict : Bool) (made : Nat) : Step → Prop
  | .call (.wordValue asStrict) | .call (.pastWord asStrict) | .nextWord asStrict
  | .iterate asStrict => asStrict = strict
  | .call .blanks => True
  | .next number => number < made
  | _ => False

/-- The steps are calls of readers that share a source on which `made` iterators have been
made before. -/
inductive Sharing (strict : Bool) : Nat → List Step → Prop
  | nil (made : Nat) : Sharing strict made []
  | cons {made : Nat} {step : Step} {later : List Step} (shares : step.Shares strict made)
      (sharing : Sharing strict (made + step.makes) later) : Sharing strict made (step :: later)

/-- The value of the word that a reply to the step gives. Blanks are no word. -/
def Step.wordIn? : Step → Reply → Option Text
  | .call .blanks, _ => none
  | _, .text value => some value
  | _, .word word => some word.value
  | _, _ => none

/-- The values of the words that steps gave, in the order of the steps. -/
def Step.valuesGiven (steps : List Step) (runs : List (Run Reply)) : List Text :=
  (steps.zip runs).flatMap fun made => (made.2.result.toOption.bind made.1.wordIn?).toList

open TclWords.Reader

variable {strict : Bool} {source : Source} {position after : Nat}

/-! ### Passing words -/

/-- The scan from `position` passes `words`, and what is left is the scan from `after`. -/
def ScansTo (strict : Bool) (source : Source) (position : Nat) (words : List Word)
    (after : Nat) : Prop :=
  ∃ warnings, scan strict source position = (scan strict source after).behind words warnings

theorem ScansTo.refl (strict : Bool) (source : Source) (position : Nat) :
    ScansTo strict source position [] position :=
  ⟨[], rfl⟩

theorem ScansTo.trans {words later : List Word} {between : Nat}
    (first : ScansTo strict source position words between)
    (second : ScansTo strict source between later after) :
    ScansTo strict source position (words ++ later) after := by
  rcases first with ⟨warnings, passes⟩
  rcases second with ⟨laterWarnings, passesLater⟩
  refine ⟨warnings ++ laterWarnings, ?_⟩
  rw [passes, passesLater, Scan.behind_behind]

theorem scansTo_of_blank {blanks rest : Text} (strict : Bool)
    (shown : source.Shows position (blanks ++ rest)) (blank : AllBlank blanks) :
    ScansTo strict source position [] (position + blanks.length) :=
  ⟨[], scan_skip strict shown blank⟩

/-- A run passes the word whose value it gives, or nothing if it gives none. If it is at fault,
it stands where the scan is at fault, in front of all words that are left. -/
inductive Advances (strict : Bool) (source : Source) (position : Nat) :
    Run (Option Text) → Prop where
  | passed {words : List Word} {value? : Option Text} {after : Nat} {warnings : List Warning}
      (stands : source.Stands after) (given : words.map Word.value = value?.toList)
      (scansTo : ScansTo strict source position words after) :
      Advances strict source position ⟨.ok value?, after, warnings⟩
  | failed {fault : Fault} {after : Nat} {warnings : List Warning}
      (stands : source.Stands after) (scansTo : ScansTo strict source position [] after)
      (noWord : (scan strict source after).words = [])
      (atFault : (scan strict source after).fault? = some fault) :
      Advances strict source position ⟨.error fault, after, warnings⟩

theorem Advances.stands {run : Run (Option Text)} (advances : Advances strict source position run) :
    source.Stands run.position := by
  cases advances with
  | passed stands given scansTo => exact stands
  | failed stands scansTo noWord atFault => exact stands

theorem advances_nothing (strict : Bool) (stands : source.Stands position) :
    Advances strict source position ⟨.ok none, position, []⟩ :=
  .passed stands List.map_nil (.refl strict source position)

theorem advances_blankSpan (strict : Bool) (stands : source.Stands position) :
    ∃ blanks after, blankSpan source position = ⟨.ok blanks, after, []⟩ ∧
      source.Stands after ∧ ScansTo strict source position [] after := by
  obtain ⟨blanks, after, skip, lands⟩ := blankSpan_lands stands
  exact ⟨blanks, after, skip, lands.stands, [], scan_of_lands strict lands⟩

namespace Word

theorem advances_readValue (strict : Bool) (stands : source.Stands position) :
    Advances strict source position (readValue strict source position) := by
  rcases stands with ⟨rest, shown⟩
  cases outcome strict shown with
  | nothing blank valueRun wordRun =>
      rw [valueRun]
      rw [← List.append_nil rest] at shown
      exact .passed shown.append.stands List.map_nil (scansTo_of_blank strict shown blank)
  | @word blanks char later value start stop warnings blank notBlank atStart bodyRun standsBehind
      valueRun wordRun =>
      rw [valueRun]
      exact .passed standsBehind rfl ⟨warnings, scan_of_word wordRun⟩
  | fault blank notBlank atStart bodyRun valueRun wordRun =>
      have again := (read_eq_error shown wordRun).2
      rw [valueRun]
      subst atStart
      refine .failed shown.append.stands (scansTo_of_blank strict shown blank) ?_ ?_
      · rw [scan_of_error again]
      · rw [scan_of_error again]

/-- Reading a word passes it as reading its value does. -/
theorem advances_read (strict : Bool) (stands : source.Stands position) :
    Advances strict source position
      ((Option.map Word.value <$> read strict) source position) := by
  rw [value_read strict stands]
  exact advances_readValue strict stands

theorem advances_readPast (strict : Bool) (stands : source.Stands position) :
    Advances strict source position (readPast strict source position) := by
  rcases advances_blankSpan strict stands with ⟨blanks, between, skip, standsBehind, scansTo⟩
  rcases stands with ⟨rest, shown⟩
  rw [readPast, bind_of_ok (peek_one_of_shows shown), Run.precededBy_nil]
  by_cases blank : Text.isSingleBlank rest.head?.toList = true
  · simp only [blank, if_true]
    rw [bind_of_ok skip]
    exact .passed standsBehind List.map_nil scansTo
  · simp only [blank, Bool.false_eq_true, if_false]
    have advances := advances_readValue strict shown.stands
    rcases run : readValue strict source position with ⟨fault | value?, after, warnings⟩
    · rw [bind_of_error run, ← run]
      exact advances
    · rw [run] at advances
      cases advances with
      | passed standsAfter given scansToAfter =>
          rcases advances_blankSpan strict standsAfter with
            ⟨blanks, last, skipAfter, standsLast, scansToLast⟩
          have passes := scansToAfter.trans scansToLast
          rw [List.append_nil] at passes
          rw [bind_of_ok run, bind_of_ok skipAfter]
          exact .passed standsLast given passes

end Word

/-! ### Calls -/

/-- An iterator reads a word while it is live. Afterwards it gives nothing and stays. -/
theorem WordIterator.next_cases (iterator : WordIterator) (source : Source) (position : Nat) :
    (iterator.next source position).2.strict = iterator.strict ∧
      ((iterator.next source position).1 = Word.read iterator.strict source position ∨
        (iterator.next source position).1 = ⟨.ok none, position, []⟩) := by
  unfold next
  split
  · simp only
    split
    · exact ⟨rfl, .inl rfl⟩
    · exact ⟨rfl, .inl rfl⟩
  · exact ⟨rfl, .inr rfl⟩

namespace Session

variable {session : Session}

/-- The iterators that the session holds are as strict as the other readers. -/
def Agrees (strict : Bool) (session : Session) : Prop :=
  ∀ iterator ∈ session.iterators, iterator.strict = strict

/-- The step can be carried out and passes the word that it gives. The session goes on on the
same source, and its iterators are as strict as they were. -/
structure Passes (strict : Bool) (session : Session) (step : Step) (run : Run Reply)
    (next : Session) : Prop where
  made : session.step? step = some (run, next)
  onSource : next.source = session.source
  goesOn : next.position = run.position
  agrees : next.Agrees strict
  held : next.iterators.length = session.iterators.length + step.makes
  advances : Advances strict session.source session.position
    ⟨run.result.map step.wordIn?, run.position, run.warnings⟩

/-- What a reader passes, it passes as well if what it gives is put into a reply. -/
private theorem advances_reply {α : Type} {value? : α → Option Text} {run : Run α}
    (advances : Advances strict source position
      ⟨run.result.map value?, run.position, run.warnings⟩)
    {step : Step} {reply : α → Reply} (same : ∀ given, step.wordIn? (reply given) = value? given) :
    Advances strict source position
      ⟨(run.result.map reply).map step.wordIn?, run.position, run.warnings⟩ := by
  have sameResult : (run.result.map reply).map step.wordIn? = run.result.map value? := by
    rcases run.result with fault | given
    · rfl
    · exact congrArg Except.ok (same given)
  rw [sameResult]
  exact advances

private theorem passes_call {α : Type} (value? : α → Option Text)
    (agrees : session.Agrees strict) {call : Call} {reader : Reader α} {reply : α → Reply}
    (isReader : call.reader = reply <$> reader)
    (advances : Advances strict session.source session.position
      ((value? <$> reader) session.source session.position))
    (same : ∀ given, (Step.call call).wordIn? (reply given) = value? given) :
    ∃ run next, session.Passes strict (.call call) run next := by
  rw [map_apply] at advances
  refine ⟨_, _, rfl, rfl, rfl, agrees, rfl, ?_⟩
  rw [isReader, map_apply]
  exact advances_reply advances same

private theorem passes_nextWord (agrees : session.Agrees strict)
    (stands : session.source.Stands session.position) :
    ∃ run next, session.Passes strict (.nextWord strict) run next := by
  obtain ⟨onSource, goesOn, sameIterators⟩ :=
    remember_keeps session (Word.read strict session.source session.position)
  have advances := Word.advances_read strict stands
  rw [map_apply] at advances
  refine ⟨_, _, rfl, onSource, goesOn, ?_, congrArg List.length sameIterators,
    advances_reply advances fun word? => by cases word? <;> rfl⟩
  rw [Agrees, sameIterators]
  exact agrees

private theorem passes_next (agrees : session.Agrees strict)
    (stands : session.source.Stands session.position) {number : Nat}
    (made : number < session.iterators.length) :
    ∃ run next, session.Passes strict (.next number) run next := by
  let iterator := session.iterators[number]
  have held : session.iterators[number]? = some iterator := List.getElem?_eq_getElem made
  have strictness : iterator.strict = strict := agrees iterator (List.getElem_mem made)
  obtain ⟨sameStrictness, given⟩ := iterator.next_cases session.source session.position
  rcases handed : iterator.next session.source session.position with ⟨run, iteratorBehind⟩
  simp only [handed] at sameStrictness given
  obtain ⟨onSource, goesOn, _⟩ := remember_keeps session run
  have advances : Advances strict session.source session.position
      ⟨run.result.map (Option.map Word.value), run.position, run.warnings⟩ := by
    rcases given with reads | nothing
    · rw [reads, strictness, ← map_apply]
      exact Word.advances_read strict stands
    · rw [nothing]
      exact advances_nothing strict stands
  refine ⟨⟨run.result.map Reply.ofNext?, run.position, run.warnings⟩,
    { session.remember run with iterators := session.iterators.set number iteratorBehind },
    ?_, onSource, goesOn, ?_, List.length_set,
    advances_reply advances fun word? => by cases word? <;> rfl⟩
  · simp only [step?, held, Option.bind_eq_bind, Option.bind_some, handed]
    rfl
  · intro other member
    rcases List.mem_or_eq_of_mem_set member with earlier | same
    · exact agrees other earlier
    · rw [same, sameStrictness, strictness]

/-- Every call of a reader that shares its source passes what it gives. -/
theorem exists_passes (agrees : session.Agrees strict)
    (stands : session.source.Stands session.position) {step : Step}
    (shares : step.Shares strict session.iterators.length) :
    ∃ run next, session.Passes strict step run next := by
  cases step with
  | call call =>
      cases call with
      | wordValue asStrict =>
          cases shares
          refine passes_call id agrees rfl ?_ fun value? => by cases value? <;> rfl
          rw [id_map]
          exact Word.advances_readValue strict stands
      | pastWord asStrict =>
          cases shares
          refine passes_call id agrees rfl ?_ fun value? => by cases value? <;> rfl
          rw [id_map]
          exact Word.advances_readPast strict stands
      | blanks =>
          obtain ⟨blanks, after, skip, standsAfter, scansTo⟩ := advances_blankSpan strict stands
          refine passes_call (fun _ => none) agrees rfl ?_ fun _ => rfl
          rw [map_apply, skip]
          exact .passed standsAfter List.map_nil scansTo
      | _ => exact shares.elim
  | nextWord asStrict =>
      cases shares
      exact passes_nextWord agrees stands
  | iterate asStrict =>
      cases shares
      refine ⟨_, _, rfl, rfl, rfl, ?_, rfl, advances_nothing strict stands⟩
      intro iterator member
      rcases List.mem_cons.mp member with made | earlier
      · rw [made]
        rfl
      · exact agrees iterator earlier
  | next number => exact passes_next agrees stands shares
  | _ => exact shares.elim

/-- The steps gave the values of `words`, with which the words of the source begin. What is left
of them is read from where the steps ended. Where a step was at fault, that fault is all that is
left. -/
structure Accounts (strict : Bool) (source : Source) (position : Nat) (words : List Word)
    (steps : List Step) (runs : List (Run Reply)) (after : Nat) : Prop where
  given : Step.valuesGiven steps runs = words.map Word.value
  scansTo : ScansTo strict source position words after
  atFault : ∀ run ∈ runs, ∀ fault, run.result = .error fault →
    (scan strict source run.position).words = [] ∧
      (scan strict source run.position).fault? = some fault

/-- The words that a run passed, with those that the later runs passed. -/
private theorem Accounts.cons {step : Step} {steps : List Step} {run : Run Reply}
    {runs : List (Run Reply)} {later : List Word} {after : Nat}
    (accounts : Accounts strict source run.position later steps runs after)
    (advances : Advances strict source position
      ⟨run.result.map step.wordIn?, run.position, run.warnings⟩) :
    ∃ words, Accounts strict source position words (step :: steps) (run :: runs) after := by
  obtain ⟨result, between, warnings⟩ := run
  rcases result with fault | reply
  · cases advances with
    | failed stands scansTo noWord atFault =>
        refine ⟨later, accounts.given, scansTo.trans accounts.scansTo,
          List.forall_mem_cons.mpr ⟨fun found failed => ?_, accounts.atFault⟩⟩
        cases failed
        exact ⟨noWord, atFault⟩
  · cases advances with
    | @passed words value? after warnings stands given scansTo =>
        refine ⟨words ++ later, ?_, scansTo.trans accounts.scansTo,
          List.forall_mem_cons.mpr ⟨fun found failed => ?_, accounts.atFault⟩⟩
        · rw [List.map_append, given, ← accounts.given]
          rfl
        · cases failed

/-- Calls of readers that share a source can all be made, and account for what they pass. -/
theorem carryOut?_accounts {steps : List Step} (agrees : session.Agrees strict)
    (stands : session.source.Stands session.position)
    (sharing : Sharing strict session.iterators.length steps) :
    ∃ runs last words, session.carryOut? steps = some (runs, last) ∧
      Accounts strict session.source session.position words steps runs last.position := by
  induction steps generalizing session with
  | nil =>
      exact ⟨[], session, [], rfl, rfl, .refl strict _ _, fun run member => by cases member⟩
  | cons step later inductionHypothesis =>
      rcases sharing with _ | ⟨shares, sharing⟩
      obtain ⟨run, next, passes⟩ := exists_passes agrees stands shares
      have standsNext : next.source.Stands next.position := by
        rw [passes.onSource, passes.goesOn]
        exact passes.advances.stands
      rw [← passes.held] at sharing
      obtain ⟨runs, last, words, carried, accounts⟩ :=
        inductionHypothesis passes.agrees standsNext sharing
      rw [passes.onSource, passes.goesOn] at accounts
      obtain ⟨words, accounts⟩ := accounts.cons passes.advances
      refine ⟨run :: runs, last, words, ?_, accounts⟩
      rw [carryOut?, passes.made]
      show (next.carryOut? later).bind _ = _
      rw [carried]
      rfl

end Session

/-! ### Lazy reading -/

namespace WordIterator

theorem next_of_word {word : Word} {warnings : List Warning}
    (run : Word.read strict source position = ⟨.ok (some word), after, warnings⟩) :
    (start strict).next source position =
      (⟨.ok (some word), after, warnings⟩, start strict) := by
  simp only [next, start, if_true, run]

/-- Words may be taken in two goes. -/
theorem take_add (iterator : WordIterator) (source : Source) (position early late : Nat) :
    iterator.take source position (early + late) =
      let (runs, between, middle) := iterator.take source position early
      let (later, last, after) := between.take source middle late
      (runs ++ later, last, after) := by
  induction early generalizing iterator position with
  | zero =>
      rw [Nat.zero_add]
      rfl
  | succ early inductionHypothesis =>
      rw [Nat.succ_add]
      simp only [take, inductionHypothesis, List.cons_append]

/-- An iterator hands out the words that the scan begins with, and stands behind the last one. -/
theorem take_of_scan {taken left : List Word} (stands : source.Stands position)
    (reads : (scan strict source position).words = taken ++ left) :
    ∃ runs after, (start strict).take source position taken.length = (runs, start strict, after) ∧
      runs.map Run.result = taken.map (fun word => .ok (some word)) ∧
      ScansTo strict source position taken after ∧
      ∀ word ∈ taken.getLast?, after = word.stop := by
  induction taken generalizing position with
  | nil =>
      refine ⟨[], position, rfl, rfl, .refl strict source position, fun word member => ?_⟩
      cases member
  | cons word taken inductionHypothesis =>
      rcases run : Word.read strict source position with ⟨fault | _ | found, after, warnings⟩
      · rw [scan_of_error run] at reads
        cases reads
      · rw [scan_of_none run] at reads
        cases reads
      · rw [scan_of_word run] at reads
        rcases List.cons.inj reads with ⟨same, readsBehind⟩
        subst same
        rcases Word.read_stops stands run with ⟨stops, standsAfter⟩
        rcases inductionHypothesis standsAfter readsBehind with
          ⟨runs, last, takes, results, scansTo, ends⟩
        refine ⟨⟨.ok (some found), after, warnings⟩ :: runs, last, ?_, ?_, ?_, ?_⟩
        · simp only [List.length_cons, take, next_of_word run, takes]
        · rw [List.map_cons, results, List.map_cons]
        · have passes : ScansTo strict source position [found] after := ⟨warnings, scan_of_word run⟩
          exact passes.trans scansTo
        · intro final member
          rcases taken with _ | ⟨second, taken⟩
          · cases takes
            cases member
            exact stops.symm
          · rw [List.getLast?_cons_cons] at member
            exact ends final member

end WordIterator

/-- A stream stays open, so that what was taken from it inside and afterwards was taken in one
go. -/
private theorem lazyRead_stream (strict : Bool) (text : Text) (position inside later : Nat) :
    (lazyRead strict (.stream text) position inside later).inside ++
        (lazyRead strict (.stream text) position inside later).after =
      ((WordIterator.start strict).take (.stream text) position (inside + later)).1 ∧
    (lazyRead strict (.stream text) position inside later).position =
      ((WordIterator.start strict).take (.stream text) position (inside + later)).2.2 := by
  rw [WordIterator.take_add]
  exact ⟨rfl, rfl⟩

/-- **Readers that share a source lose no word and give none twice.** Whatever is called on a
source, in any order, also past a fault: the values given are those of the words that the source
begins with, and a reader that goes on from there finds exactly the words that are left, and the
fault behind them if there is one. In particular, words taken lazily from a stream leave it at
the end of the last one, and reading the stream gives the rest. -/
theorem sharing_loses_no_word (strict : Bool) {rest : Text}
    (shown : source.Shows position rest) :
    (∀ steps : List Step, Sharing strict 0 steps → ∃ runs last words,
      (Session.start source position).carryOut? steps = some (runs, last) ∧
        Session.Accounts strict source position words steps runs last.position) ∧
    ∀ text taken left inside later word,
      (scan strict (.stream text) 0).words = taken ++ left →
      inside + later = taken.length → taken.getLast? = some word →
      let reading := lazyRead strict (.stream text) 0 inside later
      (reading.inside ++ reading.after).map Run.result =
          taken.map (fun word => .ok (some word)) ∧
        reading.position = word.stop ∧
        (scan strict (.stream text) word.stop).words = left ∧
        (readValues strict (.stream text) word.stop).result =
          match (scan strict (.stream text) 0).fault? with
          | none => .ok (left.map Word.value)
          | some fault => .error fault := by
  constructor
  · intro steps sharing
    have agrees : (Session.start source position).Agrees strict :=
      fun iterator member => absurd member List.not_mem_nil
    exact Session.carryOut?_accounts agrees shown.stands sharing
  · intro text taken left inside later word reads count isLast
    have stands : (Source.stream text).Stands 0 := (Source.shows_stream text 0).stands
    rcases WordIterator.take_of_scan stands reads with
      ⟨runs, after, takes, results, ⟨warnings, scansTo⟩, ends⟩
    have atEnd := ends word isLast
    subst atEnd
    rcases lazyRead_stream strict text 0 inside later with ⟨given, position⟩
    rw [count, takes] at given position
    rw [scansTo] at reads
    have leftOver : (scan strict (.stream text) word.stop).words = left :=
      List.append_cancel_left reads
    refine ⟨?_, position, leftOver, ?_⟩
    · rw [given, results]
    · rw [readValues_apply, scansTo, leftOver]
      rfl

/-- Two iterators and direct calls on a text with touching words and an open quote at its end:
the calls give all words in front of the quote, and the two that come behind are at fault.
Taken lazily from a stream in two goes, the first two words leave it at the end of the second. -/
theorem sharing_loses_no_word_up_to_fault :
    let text := Text.ofString "a \x7bb\x7d\"c\" \"d"
    let steps : List Step := [.iterate true, .next 0, .call .blanks, .call (.pastWord true),
      .iterate true, .next 0, .nextWord true, .next 1, .next 1]
    let values := [Text.ofString "a", Text.ofString "b", Text.ofString "c"]
    let fault := Fault.unterminatedQuote 10
    let bare : Word := ⟨.bare, Text.ofString "a", 0, 1⟩
    let braced : Word := ⟨.braced, Text.ofString "b", 2, 5⟩
    let quoted : Word := ⟨.quoted, Text.ofString "c", 5, 8⟩
    (Source.indexed text).Shows 0 text ∧ Sharing true 0 steps ∧
      (∃ runs last, (Session.start (.indexed text) 0).carryOut? steps = some (runs, last) ∧
        Step.valuesGiven steps runs = values ∧
        runs.map Run.result = [.ok .nothing, .ok (.word bare), .ok (.text (Text.ofString " ")),
          .ok (.text (Text.ofString "b")), .ok .nothing, .ok (.word quoted), .error fault,
          .error fault, .ok .exhausted] ∧
        (scan true (.indexed text) 0).words.map Word.value = values ∧
        (scan true (.indexed text) 0).fault? = some fault) ∧
      (scan true (.stream text) 0).words = [bare, braced] ++ [quoted] ∧
      (lazyRead true (.stream text) 0 1 1).position = 5 ∧
      (scan true (.stream text) 5).words = [quoted] := by
  intro text steps values fault bare braced quoted
  have shown : (Source.indexed text).Shows 0 text := Source.shows_indexed (Nat.zero_le _)
  have sharing : Sharing true 0 steps :=
    .cons rfl (.cons Nat.zero_lt_one (.cons trivial (.cons rfl (.cons rfl
      (.cons Nat.zero_lt_two (.cons rfl (.cons Nat.one_lt_two
        (.cons Nat.one_lt_two (.nil 2)))))))))
  have streamed : (scan true (.stream text) 0).words = [bare, braced] ++ [quoted] := by
    decide +kernel
  obtain ⟨shares, lazily⟩ := sharing_loses_no_word true shown
  obtain ⟨runs, last, words, carried, accounts⟩ := shares steps sharing
  have given : ((Session.start (.indexed text) 0).carryOut? steps).map
      (fun done => Step.valuesGiven steps done.1) = some values := by decide +kernel
  have results : ((Session.start (.indexed text) 0).carryOut? steps).map
      (fun done => done.1.map Run.result) = some [.ok .nothing, .ok (.word bare),
        .ok (.text (Text.ofString " ")), .ok (.text (Text.ofString "b")), .ok .nothing,
        .ok (.word quoted), .error fault, .error fault, .ok .exhausted] := by decide +kernel
  have ended : ((Session.start (.indexed text) 0).carryOut? steps).map
      (fun done => (done.2.position, done.1[6]?.map fun run => (run.result, run.position))) =
        some (9, some (.error fault, 9)) := by decide +kernel
  rw [carried] at given results ended
  obtain ⟨atEnd, faulty⟩ := Prod.mk.inj (Option.some.inj ended)
  obtain ⟨run, isSixth, atFault⟩ := Option.map_eq_some_iff.mp faulty
  obtain ⟨failed, atNine⟩ := Prod.mk.inj atFault
  obtain ⟨noWord, sameFault⟩ :=
    accounts.atFault run (List.mem_of_getElem? isSixth) fault failed
  obtain ⟨_, scansTo⟩ := accounts.scansTo
  have taken := lazily text [bare, braced] [quoted] 1 1 braced streamed rfl rfl
  rw [atEnd, ← atNine] at scansTo
  refine ⟨shown, sharing, ⟨runs, last, carried, Option.some.inj given, Option.some.inj results,
    ?_, ?_⟩, streamed, taken.2.1, taken.2.2.1⟩
  · rw [scansTo, Scan.behind, noWord, List.append_nil]
    exact accounts.given.symm.trans (Option.some.inj given)
  · rw [scansTo]
    exact sameFault

end TclWords
