import TclWords.Proofs.Interchange
import TclWords.Proofs.Safety
import TclWords.Proofs.Sharing
import TclWords.Proofs.Surroundings

/-!
The source of a word can be recovered at any later time.

Owns: that whatever is done with a source leaves it standing, step by step and through whole
sessions, also where a read fails or a position is refused; what `Word.sourceBetween` takes of
the text, for any two positions; and that the text taken for a word is one word again.

A reader that takes the part between two positions stops where the second one is met exactly.
If that lies in front of the first or behind the end, it is never met, and the part goes up to
the end.
-/

namespace TclWords

open TclWords.Reader

/-! ### What leaves a source standing -/

/-- Where a source admits a position, it stands there. -/
theorem Source.stands_of_seek? {source : Source} {position sought : Nat} {target : Int}
    (stands : source.Stands position) (admitted : source.seek? target = .ok sought) :
    source.Stands sought := by
  obtain ⟨rest, shown⟩ := stands
  have target_eq := seek?_eq_ok admitted
  cases source with
  | indexed text | stepping text =>
      simp only [seek?] at admitted
      split at admitted
      · exact ⟨text.drop sought, by omega, rfl⟩
      · cases admitted
  | stream text => exact (shows_stream text sought).stands
  | binary bytes => exact shown.elim
  | file handle => exact ⟨handle.text.drop sought, shown.1, shown.2.1, shown.2.2.1, rfl⟩

section Readers

variable {α β : Type} {source : Source}

namespace Reader

/-- Started where the source can stand, the reader ends where it can, also if it fails. -/
def Stays (source : Source) (reader : Reader α) : Prop :=
  ∀ position, source.Stands position → source.Stands (reader source position).position

theorem Onward.stays {strict : Bool} {reader : Reader α} (onward : Onward source strict reader) :
    Stays source reader :=
  fun position stands => (onward position stands).stands

theorem stays_pure (value : α) : Stays source (pure value : Reader α) :=
  fun _ stands => stands

theorem stays_fail (fault : Fault) : Stays source (fail fault : Reader α) :=
  fun _ stands => stands

theorem Stays.bind {first : Reader α} {next : α → Reader β} (stays : Stays source first)
    (staysNext : ∀ value, Stays source (next value)) : Stays source (first >>= next) := by
  intro position stands
  have between := stays position stands
  rcases run : first source position with ⟨fault | value, after, warnings⟩
  · rw [run] at between
    rw [bind_of_error run]
    exact between
  · rw [run] at between
    rw [bind_of_ok run]
    exact staysNext value after between

theorem Stays.map {reader : Reader α} (stays : Stays source reader) (change : α → β) :
    Stays source (change <$> reader) := by
  intro position stands
  rw [map_apply]
  exact stays position stands

theorem stays_seek (target : Int) : Stays source (seek target) := by
  intro position stands
  rw [seek]
  split
  · next admitted => exact Source.stands_of_seek? stands admitted
  · exact stands

theorem stays_readOne : Stays source readOne :=
  (onward_readOne : Onward source false readOne).stays

theorem stays_span (accepts : CodePoint → Bool) (limit : Option Nat) :
    Stays source (span accepts limit) :=
  (onward_span accepts limit : Onward source false _).stays

theorem stays_readUpTo (count : Nat) : Stays source (readUpTo count) := by
  induction count with
  | zero => exact stays_pure []
  | succ count inductionHypothesis =>
      apply stays_readOne.bind
      intro char?
      cases char? with
      | none => exact stays_pure []
      | some char => exact inductionHypothesis.bind fun _ => stays_pure _

theorem stays_peek (count : Int) : Stays source (peek count) := by
  rintro position ⟨rest, shown⟩
  have stands := shown.stands
  cases source with
  | indexed text | stream text => exact stands
  | stepping text =>
      have byReading : Stays (.stepping text) (peekByReading count) := fun here standsHere =>
        ((stays_readUpTo count.toNat).bind fun _ =>
          (stays_seek here).bind fun _ => stays_pure _) here standsHere
      exact byReading position stands
  | binary bytes => exact shown.elim
  | file handle =>
      simp only [peek, tell?_of_shows shown position, shown.2.1, Bool.not_true, Bool.and_false,
        Bool.false_eq_true, if_false]
      exact stands

end Reader

end Readers

/-! ### The part between two positions -/

namespace Word

variable {source : Source} {position start : Nat} {rest : Text}

/-- What stands from `start` up to `stop`, of the text that is left at `start`: all of it, if
`stop` is not met there. -/
def partUpTo (start stop : Int) (rest : Text) : Text :=
  if start ≤ stop ∧ stop ≤ start + rest.length then rest.take (stop - start).toNat else rest

theorem partUpTo_nil (start stop : Int) : partUpTo start stop [] = [] := by
  simp [partUpTo]

theorem partUpTo_self (start : Int) (rest : Text) : partUpTo start start rest = [] := by
  have met : start ≤ start ∧ start ≤ start + rest.length := by omega
  rw [partUpTo, if_pos met, Int.sub_self]
  rfl

/-- A character is taken if `stop` is not met in front of it. -/
theorem partUpTo_cons {start stop : Int} (notMet : start ≠ stop) (char : CodePoint)
    (rest : Text) :
    partUpTo start stop (char :: rest) = char :: partUpTo (start + 1) stop rest := by
  unfold partUpTo
  by_cases met : start ≤ stop ∧ stop ≤ start + (char :: rest).length
  · have width : (stop - start).toNat = (stop - (start + 1)).toNat + 1 := by omega
    have metLater : start + 1 ≤ stop ∧ stop ≤ start + 1 + rest.length := by
      rw [List.length_cons] at met
      omega
    rw [if_pos met, if_pos metLater, width, List.take_succ_cons]
  · have notLater : ¬ (start + 1 ≤ stop ∧ stop ≤ start + 1 + rest.length) := by
      rw [List.length_cons] at met
      omega
    rw [if_neg met, if_neg notLater]

private theorem repeatedly_sourceStep (stop : Int) (shown : source.Shows position rest) :
    repeatedly (sourceStep stop) (consuming_sourceStep stop) source position =
      ⟨.ok (partUpTo position stop rest), position + (partUpTo position stop rest).length, []⟩ := by
  have here : sourceStep stop source position =
      (if (position : Int) = stop then pure none else readOne) source position :=
    position_bind_of_shows shown position
  induction rest generalizing position with
  | nil =>
      have ended : sourceStep stop source position = ⟨.ok none, position, []⟩ := by
        rw [here]
        split
        · rfl
        · exact readOne_of_nil shown
      rw [repeatedly_of_none ended, partUpTo_nil]
      rfl
  | cons char rest inductionHypothesis =>
      by_cases met : (position : Int) = stop
      · rw [if_pos met] at here
        rw [repeatedly_of_none here, ← met, partUpTo_self]
        rfl
      · rw [if_neg met, readOne_of_cons shown] at here
        have later := inductionHypothesis shown.tail (position_bind_of_shows shown.tail _)
        rw [repeatedly_of_some here later, partUpTo_cons met, List.length_cons, Nat.add_assoc,
          Nat.add_comm 1]
        rfl

/-- The part between two positions is taken from anywhere, and the position comes back. -/
theorem sourceBetween_of_shows (shown : source.Shows start rest)
    (stands : source.Stands position) (stop : Int) :
    sourceBetween start stop source position = ⟨.ok (partUpTo start stop rest), position, []⟩ := by
  obtain ⟨left, shownHere⟩ := stands
  rw [sourceBetween, position_bind_of_shows shownHere, bind_of_ok (seek_of_shows shown position),
    bind_of_ok (repeatedly_sourceStep stop shown), bind_of_ok (seek_of_shows shownHere _)]
  rfl

/-- Without a start that the source admits, nothing is taken and nothing moves. -/
theorem sourceBetween_of_refused {start : Int} {fault : Fault}
    (tells : source.tell? position = .ok position)
    (refused : source.seek? start = .error fault) (stop : Int) :
    sourceBetween start stop source position = ⟨.error fault, position, []⟩ := by
  have told : Reader.position source position = ⟨.ok position, position, []⟩ := by
    rw [Reader.position, tells]
  have sought : seek start source position = ⟨.error fault, position, []⟩ := by
    rw [seek, refused]
  rw [sourceBetween, bind_of_ok told, bind_of_error sought]
  rfl

theorem stays_sourceBetween (start stop : Int) : Stays source (sourceBetween start stop) := by
  intro position stands
  rcases admits : source.seek? start with fault | sought
  · obtain ⟨rest, shown⟩ := stands
    rw [sourceBetween_of_refused (tell?_of_shows shown position) admits]
    exact shown.stands
  · obtain ⟨rest, shown⟩ := Source.stands_of_seek? stands admits
    rw [← Source.seek?_eq_ok admits, sourceBetween_of_shows shown stands]
    exact stands

end Word

/-! ### Whole sessions -/

theorem scan_stands {source : Source} {position : Nat} (strict : Bool)
    (stands : source.Stands position) : source.Stands (scan strict source position).position := by
  obtain ⟨rest, shown⟩ := stands
  have aligned : source.Aligned source 0 position := ⟨rest, shown, shown⟩
  obtain ⟨_, _, shownBehind, _⟩ := scan_shift strict aligned
  exact shownBehind.stands

theorem WordIterator.next_stands {source : Source} {position : Nat} (iterator : WordIterator)
    (stands : source.Stands position) :
    source.Stands (iterator.next source position).1.position := by
  rcases (iterator.next_cases source position).2 with reads | nothing
  · rw [reads]
    exact (Word.onward_read iterator.strict).stays position stands
  · rw [nothing]
    exact stands

theorem Call.stays_reader {source : Source} (call : Call) : Stays source call.reader := by
  cases call with
  | wordValue strict => exact (Word.onward_readValue strict).stays.map _
  | pastWord strict => exact (Word.onward_readPast strict).stays.map _
  | quoted strict => exact (Quoted.onward_read strict).stays.map _
  | bare strict => exact (Bare.onward_read strict).stays.map _
  | braced => exact (Braced.onward_read : Onward source false _).stays.map _
  | escape strict => exact (Escape.onward_read strict).stays.map _
  | moveTo strict number => exact (Word.onward_readPastMany strict _).stays.map _
  | hexadecimal => exact (Escape.onward_hexadecimal : Onward source false _).stays.map _
  | unicode => exact (Escape.onward_unicode : Onward source false _).stays.map _
  | octal first =>
      have number : ∀ literal, Stays source (Escape.number .octal literal) := by
        intro literal
        unfold Escape.number
        split
        · exact stays_pure _
        · exact stays_fail _
      exact ((stays_span _ _).bind fun _ => (number _).bind fun _ => stays_pure _).map _
  | span accepted limit => exact (stays_span _ _).map _
  | blanks => exact (stays_span _ _).map _
  | spacesAndTabs => exact (stays_span _ _).map _
  | one => exact stays_readOne.map _
  | peek count => exact (stays_peek count).map _
  | seek target => exact (stays_seek target).map _
  | between start stop => exact (Word.stays_sourceBetween start stop).map _

namespace Session

variable {session next : Session} {run : Run Reply}

/-- The session goes on on the same source, where that can stand. -/
def Continues (session next : Session) : Prop :=
  next.source = session.source ∧ session.source.Stands next.position

private theorem continues_remember {taken : Run (Option Word)}
    (stands : session.source.Stands taken.position) :
    session.Continues (session.remember taken) := by
  obtain ⟨onSource, atPosition, _⟩ := remember_keeps session taken
  exact ⟨onSource, atPosition ▸ stands⟩

theorem continues_step (stands : session.source.Stands session.position) {step : Step}
    (made : session.step? step = some (run, next)) : session.Continues next := by
  have performed : ∀ {reader : Reader Reply}, Stays session.source reader →
      some (session.perform reader) = some (run, next) → session.Continues next := by
    intro reader stays made
    cases made
    exact ⟨rfl, stays _ stands⟩
  cases step with
  | call call => exact performed call.stays_reader made
  | mark name =>
      obtain ⟨rest, shown⟩ := stands
      simp only [step?, tell?_of_shows shown session.position] at made
      cases made
      exact ⟨rfl, shown.stands⟩
  | goTo name =>
      obtain ⟨sought, _, made⟩ := Option.bind_eq_some_iff.mp made
      exact performed ((stays_seek sought).map _) made
  | nextWord strict =>
      cases made
      exact continues_remember ((Word.onward_read strict).stays _ stands)
  | allWords strict =>
      cases made
      exact ⟨rfl, scan_stands strict stands⟩
  | iterate strict =>
      cases made
      exact ⟨rfl, stands⟩
  | next number =>
      obtain ⟨iterator, _, made⟩ := Option.bind_eq_some_iff.mp made
      cases made
      exact continues_remember (iterator.next_stands stands)
  | wordSource index =>
      obtain ⟨word, _, made⟩ := Option.bind_eq_some_iff.mp made
      exact performed ((Word.stays_sourceBetween word.start word.stop).map _) made
  | accept =>
      cases made
      exact ⟨rfl, stands⟩

/-- Whatever steps are made, the session goes on on its source. -/
theorem continues_after (stands : session.source.Stands session.position) {steps : List Step}
    {later : Session} (reached : session.after? steps = some later) : session.Continues later := by
  induction steps generalizing session with
  | nil =>
      cases reached
      exact ⟨rfl, stands⟩
  | cons step steps inductionHypothesis =>
      rw [after?_cons] at reached
      obtain ⟨⟨run, next⟩, made, reached⟩ := Option.bind_eq_some_iff.mp reached
      obtain ⟨onSource, standsNext⟩ := continues_step stands made
      rw [← onSource] at standsNext
      obtain ⟨stillOnSource, standsLater⟩ := inductionHypothesis standsNext reached
      exact ⟨stillOnSource.trans onSource, onSource ▸ standsLater⟩

end Session

/-! ### The text of a word -/

section Texts

variable {source : Source} {text rest : Text} {position : Nat}

/-- From every position a source that presents a text shows what is left of it. -/
theorem Source.Presents.eq_drop (presents : source.Presents text)
    (shown : source.Shows position rest) : rest = text.drop position := by
  have whole := presents 0 (Nat.zero_le _)
  rw [List.drop_zero] at whole
  cases source with
  | indexed contents | stepping contents =>
      have same : contents = text := whole.2
      rw [← same, shown.2]
  | stream contents =>
      have same : contents = text := whole
      rw [← same]
      exact Eq.symm shown
  | binary bytes => exact shown.elim
  | file handle =>
      have same : handle.text = text := whole.2.2.2
      rw [← same, shown.2.2.2]

namespace Word

theorem partUpTo_append (start : Nat) (written behind : Text) :
    partUpTo start (start + written.length : Nat) (written ++ behind) = written := by
  have met : (start : Int) ≤ (start + written.length : Nat) ∧
      ((start + written.length : Nat) : Int) ≤ start + (written ++ behind).length := by
    rw [List.length_append]
    omega
  have width : (((start + written.length : Nat) : Int) - start).toNat = written.length := by omega
  rw [partUpTo, if_pos met, width, List.take_left]

/-- What stands between two positions of a text is a slice of it. -/
theorem partUpTo_drop {start : Nat} (inText : start ≤ text.length) (stop : Int) :
    partUpTo start stop (text.drop start) =
      if start ≤ stop ∧ stop ≤ text.length then text.slice start stop else text.drop start := by
  have left : (start : Int) + (text.drop start).length = text.length := by
    rw [List.length_drop]
    omega
  rw [partUpTo, left]
  split
  · next met =>
      have notNegative : ¬ stop < 0 := by omega
      have width : (stop - start).toNat = stop.toNat - start := by omega
      simp only [Text.slice, notNegative, if_false, width]
  · rfl

theorem slice_of_drop {start : Nat} {written behind : Text}
    (left : text.drop start = written ++ behind) :
    text.slice start (start + written.length : Nat) = written := by
  have notNegative : ¬ ((start + written.length : Nat) : Int) < 0 := by omega
  simp only [Text.slice, notNegative, if_false, Int.toNat_natCast, Nat.add_sub_cancel_left, left,
    List.take_left]

/-- A word that was read is taken from its source as it was written, from anywhere, and that by
itself is the same word. -/
theorem source_of_read (presents : source.Presents text) {strict : Bool} {word : Word}
    {after : Nat} {warnings : List Warning} (stands : source.Stands position)
    (run : read strict source position = ⟨.ok (some word), after, warnings⟩) :
    let written := text.slice word.start word.stop
    (∀ here, source.Stands here → word.source source here = ⟨.ok written, here, []⟩) ∧
      ∀ other, Source.Shows other 0 written →
        scan strict other 0 = ⟨[⟨word.kind, word.value, 0, written.length⟩], none,
          written.length, warned written.length written⟩ := by
  intro written
  obtain ⟨rest, shown⟩ := stands
  obtain ⟨blanks, spelling, behind, rfl, _, spelled, isKind, atStart, atStop, _, _⟩ :=
    exists_spelled_of_read shown run
  have shownAtStart := shown.append
  rw [← atStart] at shownAtStart
  have same : written = spelling := by
    show text.slice word.start word.stop = spelling
    rw [atStop, slice_of_drop (presents.eq_drop shownAtStart).symm]
  rw [same]
  constructor
  · intro here standsHere
    show sourceBetween word.start word.stop source here = _
    rw [atStop, sourceBetween_of_shows shownAtStart standsHere, partUpTo_append]
  · intro other shownOther
    have alone := spelled.in_front_of (fun _ => rfl) (fun _ _ member => by cases member)
    rw [alone.scan_alone shownOther, isKind, Nat.zero_add]

end Word

end Texts

/-- **The source of a word can be recovered at any later time.** A word that was read can be
taken from its source again behind every further session, as it is written in the text and
without a move. Read by itself with the same strictness it is a single word, of the same kind
and value, from its beginning to its end. The part between any two positions comes to an end as
well: at the second one if that is met, and else at the end of the text. A start outside of a
text in memory is refused without a move. -/
theorem sources_are_recovered {source : Source} {text : Text} (presents : source.Presents text) :
    (∀ strict position word after warnings, source.Stands position →
      Word.read strict source position = ⟨.ok (some word), after, warnings⟩ →
        let written := text.slice word.start word.stop
        (∀ session steps later, Session.source session = source →
          source.Stands session.position → session.after? steps = some later →
            later.source = source ∧
              word.source source later.position = ⟨.ok written, later.position, []⟩) ∧
        ∀ other, Source.Shows other 0 written →
          scan strict other 0 = ⟨[⟨word.kind, word.value, 0, written.length⟩], none,
            written.length, warned written.length written⟩) ∧
    (∀ (start stop : Int) here, source.Stands here → 0 ≤ start ∧ start ≤ text.length →
      Word.sourceBetween start stop source here =
        ⟨.ok (if start ≤ stop ∧ stop ≤ text.length then text.slice start.toNat stop
          else text.drop start.toNat), here, []⟩) ∧
    ∀ (start stop : Int) here, start < 0 ∨ text.length < start →
      Word.sourceBetween start stop (.indexed text) here =
        ⟨.error (.outsideText start text.length), here, []⟩ := by
  refine ⟨?_, ?_, ?_⟩
  · intro strict position word after warnings stands run written
    obtain ⟨recovered, alone⟩ := Word.source_of_read presents stands run
    refine ⟨?_, alone⟩
    rintro session steps later rfl standsHere reached
    obtain ⟨onSource, standsLater⟩ := Session.continues_after standsHere reached
    exact ⟨onSource, recovered later.position standsLater⟩
  · intro start stop here standsHere inText
    obtain ⟨first, rfl⟩ := Int.eq_ofNat_of_zero_le inText.1
    have firstInText : first ≤ text.length := by omega
    rw [Word.sourceBetween_of_shows (presents first firstInText) standsHere,
      Word.partUpTo_drop firstInText, Int.toNat_natCast]
  · intro start stop here outside
    have notAdmitted : ¬ (0 ≤ start ∧ start ≤ text.length) := by omega
    have refused : Source.seek? (.indexed text) start =
        .error (.outsideText start text.length) := if_neg notAdmitted
    exact Word.sourceBetween_of_refused rfl refused stop

/-- A quoted word with a continued line, taken again when a later read has failed and the stream
stands behind its end; then a part whose second position lies in front of the first. -/
theorem sources_are_recovered_behind_fault :
    let text := Text.ofString "a \"b\\\n c\" \x7bd"
    let source := Source.stream text
    let word : Word := ⟨.quoted, Text.ofString "b c", 2, 9⟩
    let steps : List Step := [.call (.wordValue true), .call (.seek 30), .call (.peek (-1))]
    Word.read true source 1 = ⟨.ok (some word), 9, []⟩ ∧
      ((Session.start source 9).run? steps).map (List.map Run.result) =
        some [.error (.unterminatedBrace 11 1), .ok .nothing, .ok (.text [])] ∧
      ((Session.start source 9).after? steps).map Session.position = some 30 ∧
      word.source source 30 = ⟨.ok (Text.ofString "\"b\\\n c\""), 30, []⟩ ∧
      scan true (.indexed (Text.ofString "\"b\\\n c\"")) 0 =
        ⟨[⟨.quoted, Text.ofString "b c", 0, 7⟩], none, 7, []⟩ ∧
      Word.sourceBetween 10 4 source 30 = ⟨.ok (Text.ofString "\x7bd"), 30, []⟩ ∧
      Word.sourceBetween 13 4 (.indexed text) 3 = ⟨.error (.outsideText 13 12), 3, []⟩ := by
  intro text source word steps
  have wordRun : Word.read true source 1 = ⟨.ok (some word), 9, []⟩ :=
    Run.ext (by decide +kernel) (by decide +kernel) (by decide +kernel)
  have results : ((Session.start source 9).run? steps).map (List.map Run.result) =
      some [.error (.unterminatedBrace 11 1), .ok .nothing, .ok (.text [])] := by decide +kernel
  have ended : ((Session.start source 9).after? steps).map Session.position = some 30 := by
    decide +kernel
  obtain ⟨recovered, between, refused⟩ := sources_are_recovered (Source.presents_stream text)
  obtain ⟨later, reached, atLater⟩ := Option.map_eq_some_iff.mp ended
  obtain ⟨taken, alone⟩ := recovered true 1 word 9 [] (Source.shows_stream text 1).stands wordRun
  have again := (taken (Session.start source 9) steps later rfl
    (Source.shows_stream text 9).stands reached).2
  rw [atLater] at again
  exact ⟨wordRun, results, ended, again, alone _ (Source.shows_indexed (Nat.zero_le _)),
    between 10 4 30 (Source.shows_stream text 30).stands (by decide), refused 13 4 3 (by decide)⟩

end TclWords
