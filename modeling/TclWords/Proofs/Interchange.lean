import TclWords.Session
import TclWords.Proofs.Shift.Word
import TclWords.Proofs.Tiling

/-!
Sources of one text are interchangeable.

Owns: the steps that every source of a text can carry out, and that a session of such
steps goes on any source that presents the text as it goes on the text in memory: one
step gives the same run and leaves the same things remembered, and so does the session.
-/

namespace TclWords

/-- At every position of the text the source shows what is left of the text there. -/
def Source.Presents (source : Source) (text : Text) : Prop :=
  ∀ position, position ≤ text.length → source.Shows position (text.drop position)

/-- The call seeks positions of the text only, and does not look ahead backwards. -/
def Call.Portable (length : Nat) : Call → Prop
  | .peek count => 0 ≤ count
  | .seek target => 0 ≤ target ∧ target ≤ length
  | .between start _ => 0 ≤ start ∧ start ≤ length
  | _ => True

instance (length : Nat) (call : Call) : Decidable (call.Portable length) := by
  unfold Call.Portable
  cases call <;> infer_instance

/-- The step neither leaves a text of this length nor asks for the kind of its source. -/
def Step.Portable (length : Nat) : Step → Prop
  | .call made => made.Portable length
  | .accept => False
  | _ => True

instance (length : Nat) (step : Step) : Decidable (step.Portable length) := by
  unfold Step.Portable
  cases step <;> infer_instance

/-- The session as it stands, on another source. -/
def Session.on (session : Session) (source : Source) : Session :=
  { session with source }

/-- The session stands in the text, and what it remembers lies in the text. -/
structure Session.Within (text : Text) (session : Session) : Prop where
  position : session.position ≤ text.length
  marks : ∀ entry ∈ session.marks, entry.2 ≤ text.length
  words : ∀ word ∈ session.words, word.start ≤ text.length

open TclWords.Reader

variable {source : Source} {text : Text}

theorem Source.Presents.aligned (presents : source.Presents text) {position : Nat}
    (inText : position ≤ text.length) : (Source.indexed text).Aligned source 0 position :=
  ⟨text.drop position, shows_indexed inText, presents position inText⟩

theorem Source.presents_stepping (text : Text) : (Source.stepping text).Presents text :=
  fun _ inText => shows_stepping inText

theorem Source.presents_stream (text : Text) : (Source.stream text).Presents text :=
  fun position _ => shows_stream text position

/-! ### Readers -/

namespace Reader

variable {α β : Type}

/-- From every position of the text the reader does the same on the source as on the text
in memory, and it stays within the text. -/
def Agrees (source : Source) (text : Text) (reader : Reader α) : Prop :=
  ∀ position, position ≤ text.length →
    reader source position = reader (.indexed text) position ∧
      (reader (.indexed text) position).position ≤ text.length

theorem Shifts.agrees {reader : Reader α} {change : α → α} (presents : source.Presents text)
    (shifts : Shifts (.indexed text) source 0 change reader reader)
    (same : ∀ value, change value = value) : Agrees source text reader := by
  intro position inText
  rcases shifts position (presents.aligned inText) with ⟨further, rest, shownAfter, _⟩
  rw [Run.shift_zero _ same] at further
  exact ⟨further, shownAfter.1⟩

theorem Agrees.map {reader : Reader α} (agrees : Agrees source text reader)
    (change : α → β) : Agrees source text (change <$> reader) := by
  intro position inText
  rcases agrees position inText with ⟨same, stays⟩
  rw [map_apply, map_apply, same]
  exact ⟨rfl, stays⟩

end Reader

private theorem agrees_seek (presents : source.Presents text) {target : Int}
    (inText : 0 ≤ target ∧ target ≤ text.length) : Agrees source text (seek target) := by
  rcases Int.eq_ofNat_of_zero_le inText.1 with ⟨sought, same⟩
  subst same
  have soughtInText : sought ≤ text.length := by omega
  exact (shifts_seek (presents.aligned soughtInText)).agrees presents fun _ => rfl

private theorem agrees_sourceBetween (presents : source.Presents text) {start : Int}
    (inText : 0 ≤ start ∧ start ≤ text.length) (stop : Int) :
    Agrees source text (Word.sourceBetween start stop) := by
  rcases Int.eq_ofNat_of_zero_le inText.1 with ⟨first, same⟩
  subst same
  have firstInText : first ≤ text.length := by omega
  have shifts := Word.shifts_sourceBetween (presents.aligned firstInText) stop
  rw [Nat.add_zero, Int.natCast_zero, Int.add_zero] at shifts
  exact shifts.agrees presents fun _ => rfl

theorem Word.agrees_read (presents : source.Presents text) (strict : Bool) :
    Agrees source text (Word.read strict) :=
  (Word.shifts_read strict).agrees presents fun word? => by cases word? <;> rfl

theorem Call.agrees_reader (presents : source.Presents text) {call : Call}
    (portable : call.Portable text.length) : Agrees source text call.reader := by
  have shifted : ∀ {α : Type} {reader : Reader α} (change : α → Reply),
      Shifts (.indexed text) source 0 id reader reader →
        Agrees source text (change <$> reader) := by
    intro α reader change shifts
    exact (shifts.agrees presents fun _ => rfl).map change
  cases call with
  | wordValue strict => exact shifted _ (Word.shifts_readValue strict)
  | pastWord strict => exact shifted _ (Word.shifts_readPast strict)
  | quoted strict => exact shifted _ (Quoted.shifts_read strict)
  | bare strict => exact shifted _ (Bare.shifts_read strict)
  | braced => exact shifted _ Braced.shifts_read
  | escape strict => exact shifted _ (Escape.shifts_read strict)
  | moveTo strict number => exact shifted _ (Word.shifts_moveTo strict number)
  | hexadecimal => exact shifted _ Escape.shifts_hexadecimal
  | unicode => exact shifted _ Escape.shifts_unicode
  | octal first => exact shifted _ (Escape.shifts_octal first)
  | span accepted limit => exact shifted _ (shifts_span _ _)
  | blanks => exact shifted _ (shifts_span _ _)
  | spacesAndTabs => exact shifted _ (shifts_span _ _)
  | one => exact shifted _ shifts_readOne
  | peek count => exact shifted _ (shifts_peek portable)
  | seek target => exact (agrees_seek presents portable).map _
  | between start stop => exact (agrees_sourceBetween presents portable stop).map _

/-! ### One step -/

namespace Session

variable {session : Session}

/-- What a step gives, with the session that goes on from it on the source. -/
def resumed (source : Source) (done : Run Reply × Session) : Run Reply × Session :=
  (done.1, done.2.on source)

/-- The step comes to the same on the source and on the text in memory, and leaves the
session within the text. -/
def Answers (source : Source) (text : Text) (session : Session) (step : Step) : Prop :=
  ∃ answer : Option (Run Reply × Session),
    (session.on (.indexed text)).step? step = answer.map (resumed (.indexed text)) ∧
      (session.on source).step? step = answer.map (resumed source) ∧
        ∀ done ∈ answer, done.2.Within text

private theorem answers_none {step : Step}
    (refused : ∀ other, (session.on other).step? step = none) :
    Answers source text session step :=
  ⟨none, refused _, refused _, by intro done member; cases member⟩

private theorem answers_reply {step : Step} (presents : source.Presents text)
    (within : session.Within text) (reply : Reply) (next : Session)
    (replies : ∀ other, other.Stands session.position →
      (session.on other).step? step = some ((next.on other).reply (.ok reply)))
    (withinNext : next.Within text) : Answers source text session step :=
  ⟨some (⟨.ok reply, next.position, []⟩, next),
    replies _ (Source.shows_indexed within.position).stands,
    replies _ (presents session.position within.position).stands,
    by intro done member; cases member; exact withinNext⟩

private theorem answers_perform {step : Step} (within : session.Within text)
    {reader : Reader Reply} (agrees : Agrees source text reader)
    (performs : ∀ other, (session.on other).step? step =
      some ((session.on other).perform reader)) : Answers source text session step := by
  rcases agrees session.position within.position with ⟨same, stays⟩
  let run := reader (.indexed text) session.position
  refine ⟨some (run, { session with position := run.position }), performs _, ?_, ?_⟩
  · rw [performs source]
    show some (reader source session.position,
      ({ session with position := (reader source session.position).position } : Session).on
        source) = _
    rw [same]
    rfl
  · intro done member
    cases member
    exact ⟨stays, within.marks, within.words⟩

private theorem answers_call (presents : source.Presents text) (within : session.Within text)
    {call : Call} (portable : call.Portable text.length) :
    Answers source text session (.call call) :=
  answers_perform within (call.agrees_reader presents portable) fun _ => rfl

/-- A step that reads with what the session holds, if it holds it. -/
private theorem answers_held {α : Type} {step : Step} (held : Option α)
    (uses : α → Reader Reply) (within : session.Within text)
    (looksUp : ∀ other, (session.on other).step? step =
      held.bind fun value => some ((session.on other).perform (uses value)))
    (agrees : ∀ value, held = some value → Agrees source text (uses value)) :
    Answers source text session step := by
  cases held with
  | none => exact answers_none looksUp
  | some value => exact answers_perform within (agrees value rfl) looksUp

private theorem answers_goTo (presents : source.Presents text) (within : session.Within text)
    (name : Text) : Answers source text session (.goTo name) := by
  apply answers_held (session.marks.lookup name)
    (fun sought => (fun _ => Reply.nothing) <$> Reader.seek sought) within fun _ => rfl
  intro sought found
  have markInText : sought ≤ text.length := by
    rcases List.lookup_eq_some_iff.mp found with ⟨front, back, same, _⟩
    apply within.marks (name, sought)
    rw [same]
    exact List.mem_append_right front List.mem_cons_self
  have inText : 0 ≤ (sought : Int) ∧ (sought : Int) ≤ text.length := by omega
  exact (agrees_seek presents inText).map _

private theorem answers_wordSource (presents : source.Presents text)
    (within : session.Within text) (index : Int) :
    Answers source text session (.wordSource index) := by
  apply answers_held (session.word? index) (fun word => Reply.text <$> word.source) within
    fun _ => rfl
  intro word found
  have startInText : word.start ≤ text.length := by
    apply within.words
    unfold word? at found
    split at found
    · exact List.mem_of_getElem? found
    split at found
    · exact List.mem_of_getElem? found
    · cases found
  have inText : 0 ≤ (word.start : Int) ∧ (word.start : Int) ≤ text.length := by omega
  exact (agrees_sourceBetween presents inText word.stop).map _

/-! ### Steps that remember words -/

private theorem remember_on (run : Run (Option Word)) (source : Source) :
    (session.on source).remember run = (session.remember run).on source := by
  rcases run with ⟨_ | _ | word, after, warnings⟩ <;> rfl

private theorem within_remember (within : session.Within text) {run : Run (Option Word)}
    (stays : run.position ≤ text.length)
    (inText : ∀ word, run.result = .ok (some word) → word.start ≤ text.length) :
    (session.remember run).Within text := by
  rcases run with ⟨_ | _ | word, after, warnings⟩
  · exact ⟨stays, within.marks, within.words⟩
  · exact ⟨stays, within.marks, within.words⟩
  · refine ⟨stays, within.marks, ?_⟩
    intro other member
    rcases List.mem_append.mp member with earlier | last
    · exact within.words other earlier
    · rw [List.mem_singleton.mp last]
      exact inText word rfl

private theorem start_of_read {strict : Bool} {position : Nat} (inText : position ≤ text.length)
    {word : Word} (found : (Word.read strict (.indexed text) position).result = .ok (some word)) :
    word.start ≤ text.length := by
  rcases run : Word.read strict (.indexed text) position with ⟨result, after, warnings⟩
  rw [run] at found
  cases found
  rcases Word.read_follows inText run with ⟨follows, _⟩
  exact Nat.le_trans (Nat.le_of_lt follows.nonempty) follows.inText

private theorem answers_nextWord (presents : source.Presents text)
    (within : session.Within text) (strict : Bool) :
    Answers source text session (.nextWord strict) := by
  rcases Word.agrees_read presents strict session.position within.position with ⟨same, stays⟩
  let run := Word.read strict (.indexed text) session.position
  refine ⟨some (⟨run.result.map Reply.ofWord?, run.position, run.warnings⟩,
    session.remember run), ?_, ?_, ?_⟩
  · simp only [step?, remember_on]
    rfl
  · have sameRun : Word.read strict (session.on source).source (session.on source).position =
        run := same
    simp only [step?, sameRun, remember_on]
    rfl
  · intro done member
    cases member
    exact within_remember within stays fun word found => start_of_read within.position found

private theorem answers_allWords (presents : source.Presents text)
    (within : session.Within text) (strict : Bool) :
    Answers source text session (.allWords strict) := by
  rcases scan_shift strict (presents.aligned within.position) with ⟨further, rest, stays, _⟩
  let scanned := scan strict (.indexed text) session.position
  have same : scan strict (session.on source).source (session.on source).position = scanned := by
    rw [Scan.shift_zero] at further
    exact further
  refine ⟨some (⟨scanned.run.result.map Reply.words, scanned.run.position,
    scanned.run.warnings⟩, { session with
      position := scanned.position
      words := session.words ++ scanned.words }), rfl, ?_, ?_⟩
  · simp only [step?, same]
    rfl
  · intro done member
    cases member
    refine ⟨stays.1, within.marks, ?_⟩
    intro word member
    rcases List.mem_append.mp member with earlier | later
    · exact within.words word earlier
    · rcases scan_tiles strict within.position with ⟨last, tiles, _⟩
      exact tiles.start_le_length word later

private theorem next_agrees (presents : source.Presents text) (iterator : WordIterator)
    {position : Nat} (inText : position ≤ text.length) :
    iterator.next source position = iterator.next (.indexed text) position := by
  rcases Word.agrees_read presents iterator.strict position inText with ⟨same, _⟩
  rw [WordIterator.next, WordIterator.next, same]

private theorem next_within (presents : source.Presents text) (iterator : WordIterator)
    {position : Nat} (inText : position ≤ text.length) :
    (iterator.next (.indexed text) position).1.position ≤ text.length ∧
      ∀ word, (iterator.next (.indexed text) position).1.result = .ok (some word) →
        word.start ≤ text.length := by
  rcases Word.agrees_read presents iterator.strict position inText with ⟨_, stays⟩
  by_cases live : iterator.live
  · have handedOut : (iterator.next (.indexed text) position).1 =
        Word.read iterator.strict (.indexed text) position := by
      simp only [WordIterator.next, live, if_true]
      split <;> rfl
    rw [handedOut]
    exact ⟨stays, fun word found => start_of_read inText found⟩
  · simp only [WordIterator.next, live, Bool.false_eq_true, if_false]
    refine ⟨inText, ?_⟩
    intro word found
    cases found

private theorem answers_next (presents : source.Presents text) (within : session.Within text)
    (number : Nat) : Answers source text session (.next number) := by
  cases held : session.iterators[number]? with
  | none =>
      apply answers_none
      intro other
      show (session.iterators[number]? >>= _) = none
      rw [held]
      rfl
  | some iterator =>
      rcases next_within presents iterator within.position with ⟨stays, inText⟩
      have answered : ∀ other, iterator.next other session.position =
          iterator.next (.indexed text) session.position →
            (session.on other).step? (.next number) =
              ((session.on (.indexed text)).step? (.next number)).map (resumed other) := by
        intro other same
        have sameNext : iterator.next (session.on other).source (session.on other).position =
            iterator.next (.indexed text) session.position := same
        show (session.iterators[number]? >>= _) =
          Option.map (resumed other) (session.iterators[number]? >>= _)
        rw [held]
        simp only [Option.bind_eq_bind, Option.bind_some, sameNext, remember_on]
        rfl
      refine ⟨(session.on (.indexed text)).step? (.next number), answered _ rfl,
        answered source (next_agrees presents iterator within.position), ?_⟩
      intro done member
      change (session.iterators[number]? >>= _) = some done at member
      rw [held] at member
      cases member
      have withinOn : (session.on (.indexed text)).Within text :=
        ⟨within.position, within.marks, within.words⟩
      have remembered := within_remember withinOn stays inText
      exact ⟨remembered.position, remembered.marks, remembered.words⟩

private theorem answers_mark (presents : source.Presents text) (within : session.Within text)
    (name : Text) : Answers source text session (.mark name) := by
  let marked := { session with marks := (name, session.position) :: session.marks }
  apply answers_reply presents within .nothing marked
  · rintro other ⟨rest, shown⟩
    have told : (session.on other).source.tell? (session.on other).position =
        .ok session.position := tell?_of_shows shown session.position
    simp only [step?, told]
    rfl
  · refine ⟨within.position, ?_, within.words⟩
    intro entry member
    rcases List.mem_cons.mp member with new | earlier
    · rw [new]
      exact within.position
    · exact within.marks entry earlier

theorem answers_step (presents : source.Presents text) (within : session.Within text)
    {step : Step} (portable : step.Portable text.length) :
    Answers source text session step := by
  cases step with
  | call call => exact answers_call presents within portable
  | mark name => exact answers_mark presents within name
  | goTo name => exact answers_goTo presents within name
  | nextWord strict => exact answers_nextWord presents within strict
  | allWords strict => exact answers_allWords presents within strict
  | iterate strict =>
      let renewed := { session with iterators := .start strict :: session.iterators }
      exact answers_reply presents within .nothing renewed (fun _ _ => rfl)
        ⟨within.position, within.marks, within.words⟩
  | next number => exact answers_next presents within number
  | wordSource index => exact answers_wordSource presents within index
  | accept => exact portable.elim

/-! ### Whole sessions -/

/-- A session of portable steps goes on every source that presents a text as it goes on the
text in memory. -/
theorem run?_on (presents : source.Presents text) (within : session.Within text)
    {steps : List Step} (portable : ∀ step ∈ steps, step.Portable text.length) :
    (session.on source).run? steps = (session.on (.indexed text)).run? steps := by
  induction steps generalizing session with
  | nil => rfl
  | cons step later inductionHypothesis =>
      have answers := answers_step presents within (portable step List.mem_cons_self)
      rcases answers with ⟨answer, answered, answeredOn, withinNext⟩
      rw [run?_cons, run?_cons, answered, answeredOn]
      cases answer with
      | none => rfl
      | some done =>
          have further := inductionHypothesis (withinNext done rfl)
            fun step member => portable step (List.mem_cons_of_mem _ member)
          show ((done.2.on source).run? later).map _ =
            ((done.2.on (.indexed text)).run? later).map _
          rw [further]
          rfl

end Session

/-- **Sources are interchangeable.** A session within a text gives step by step the same
values, faults, warnings and positions whether the text is in memory, is looked ahead in by
reading on, or comes from a stream. So reading all words of the stream is splitting the
text. -/
theorem cursors_interchangeable (text : Text) {position : Nat}
    (inText : position ≤ text.length) {steps : List Step}
    (portable : ∀ step ∈ steps, step.Portable text.length) :
    (Session.start (.stepping text) position).run? steps =
        (Session.start (.indexed text) position).run? steps ∧
      (Session.start (.stream text) position).run? steps =
          (Session.start (.indexed text) position).run? steps ∧
        ∀ strict, readValues strict (.stream text) 0 = split strict text := by
  have within : (Session.start (.indexed text) position).Within text := by
    refine ⟨inText, ?_, ?_⟩
    · intro entry member
      cases member
    · intro word member
      cases member
  refine ⟨?_, ?_, ?_⟩
  · exact Session.run?_on (Source.presents_stepping text) within portable
  · exact Session.run?_on (Source.presents_stream text) within portable
  · intro strict
    have agrees : Agrees (.stream text) text (readValues strict) :=
      (shifts_readValues strict).agrees (Source.presents_stream text) fun _ => rfl
    exact (agrees 0 (Nat.zero_le _)).1

/-- A session that goes on after two faults and a warning, and comes back to a mark. -/
theorem cursors_interchangeable_past_faults :
    let text := Text.ofString "a \x7bb\x7d \"c\\q\" d\\"
    let steps := [.mark [], .nextWord true, .call (.peek 3), .call (.moveTo true 2), .goTo [],
      .allWords false, .wordSource (-1), .call (.seek 8), .iterate true, .next 0, .next 0]
    1 ≤ text.length ∧ (∀ step ∈ steps, step.Portable text.length) ∧
      ((Session.start (.indexed text) 1).run? steps).map (List.map Run.position) =
        some [1, 5, 5, 6, 1, 14, 14, 8, 8, 8, 8] ∧
      (Session.start (.stepping text) 1).run? steps =
        (Session.start (.indexed text) 1).run? steps ∧
      (Session.start (.stream text) 1).run? steps =
        (Session.start (.indexed text) 1).run? steps ∧
      ∀ strict, readValues strict (.stream text) 0 = split strict text := by
  intro text steps
  have inText : 1 ≤ text.length := by decide
  have portable : ∀ step ∈ steps, step.Portable text.length := by decide
  have answered : ((Session.start (.indexed text) 1).run? steps).map (List.map Run.position) =
      some [1, 5, 5, 6, 1, 14, 14, 8, 8, 8, 8] := by decide +kernel
  exact ⟨inText, portable, answered, cursors_interchangeable text inText portable⟩

end TclWords
