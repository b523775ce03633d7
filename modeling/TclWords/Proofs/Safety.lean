import TclWords.Proofs.Ending
import TclWords.Proofs.Kinds
import TclWords.Proofs.Strictness
import TclWords.Session

/-!
Reading on is safe.

Owns: the faults of words, which are all that can go wrong while words are read from
characters; `Reader.Onward`, by which a reader never ends in front of where it was started,
leaves the source standing, and fails with such a fault only; that the readers are of this kind;
and that a session of them in a text in memory stays in the text, whatever it seeks.

A word at fault sends its reader back to where the word began, and that is in front of where the
rest of the word was read from. So `Run.Onward` tells about a run from any place in front of it,
and going back over a fault keeps it (`Run.Onward.rewound`).
-/

namespace TclWords

open TclWords.Reader

/-- A word does not end, or a strict reader meets a malformed sequence. -/
def Fault.OfWord (strict : Bool) : Fault → Prop
  | .unterminatedQuote _ => True
  | .unterminatedBrace _ _ => True
  | .danglingBackslash _ => strict = true
  | .unknownEscape _ _ => strict = true
  | _ => False

namespace Fault

variable {strict : Bool} {fault : Fault}

theorem OfWord.isReadFault (ofWord : fault.OfWord strict) : fault.IsReadFault := by
  cases fault <;> trivial

theorem OfWord.of_lenient (ofWord : fault.OfWord false) : fault.OfWord strict := by
  cases fault <;> trivial

theorem OfWord.of_malformed (malformed : fault.IsMalformedEscape) : fault.OfWord true := by
  cases fault <;> trivial

end Fault

/-! ### Runs that stay in the text -/

/-- The run does not end in front of `position`, it ends where the source can stand, and if it
fails, a word is at fault. -/
structure Run.Onward {α : Type} (source : Source) (strict : Bool) (position : Nat)
    (run : Run α) : Prop where
  forward : position ≤ run.position
  stands : source.Stands run.position
  ofWord : ∀ fault, run.result = .error fault → fault.OfWord strict

section Words

variable {α β : Type} {source : Source} {strict : Bool} {position start : Nat} {rest : Text}

namespace Run.Onward

variable {run : Run α}

theorem of_ok {value : α} {after : Nat} {warnings : List Warning} (forward : position ≤ after)
    (stands : source.Stands after) :
    Onward source strict position (⟨.ok value, after, warnings⟩ : Run α) :=
  ⟨forward, stands, fun _ failed => by cases failed⟩

theorem of_error {fault : Fault} {warnings : List Warning} (ofWord : fault.OfWord strict)
    (stands : source.Stands position) :
    Onward source strict position (⟨.error fault, position, warnings⟩ : Run α) :=
  ⟨Nat.le_refl position, stands, fun _ failed => by cases failed; exact ofWord⟩

theorem behind (onward : run.Onward source strict position) (inFront : start ≤ position) :
    run.Onward source strict start :=
  ⟨Nat.le_trans inFront onward.forward, onward.stands, onward.ofWord⟩

theorem of_lenient (onward : run.Onward source false position) :
    run.Onward source strict position :=
  ⟨onward.forward, onward.stands, fun fault failed => (onward.ofWord fault failed).of_lenient⟩

/-- The value does not matter, nor do warnings. -/
theorem map (onward : run.Onward source strict position) (change : α → β)
    (warnings : List Warning) :
    Onward source strict position ⟨run.result.map change, run.position, warnings⟩ := by
  refine ⟨onward.forward, onward.stands, fun fault failed => onward.ofWord fault ?_⟩
  cases result : run.result with
  | ok value =>
      rw [result] at failed
      cases failed
  | error found =>
      rw [result] at failed
      cases failed
      rfl

/-- Going back over a fault, the run ends at the place gone back to. -/
theorem rewound {reader : Reader α} {here : Nat} (stands : source.Stands start)
    (onward : (reader source here).Onward source strict start) :
    (rewindingTo start reader source here).Onward source strict start := by
  obtain ⟨rest, shown⟩ := stands
  rcases run : reader source here with ⟨fault | value, after, warnings⟩
  · rw [run] at onward
    have ofWord := onward.ofWord fault rfl
    rw [rewindingTo_of_error shown run ofWord.isReadFault]
    exact of_error ofWord shown.stands
  · rw [rewindingTo_eq_ok_iff.mpr run, ← run]
    exact onward

end Run.Onward

namespace Reader

/-- Started wherever the source can stand, the reader goes on from there. -/
def Onward (source : Source) (strict : Bool) (reader : Reader α) : Prop :=
  ∀ position, source.Stands position → (reader source position).Onward source strict position

theorem onward_pure (value : α) : Onward source strict (pure value : Reader α) :=
  fun position stands => .of_ok (Nat.le_refl position) stands

theorem Onward.bind {first : Reader α} {next : α → Reader β}
    (onward : Onward source strict first)
    (onwardNext : ∀ value, Onward source strict (next value)) :
    Onward source strict (first >>= next) := by
  intro position stands
  have firstOnward := onward position stands
  rcases run : first source position with ⟨fault | value, between, warnings⟩
  · rw [run] at firstOnward
    rw [bind_of_error run]
    exact ⟨firstOnward.forward, firstOnward.stands,
      fun found failed => firstOnward.ofWord found (by cases failed; rfl)⟩
  · rw [run] at firstOnward
    rw [bind_of_ok run]
    have nextOnward := (onwardNext value between firstOnward.stands).behind firstOnward.forward
    exact ⟨nextOnward.forward, nextOnward.stands, nextOnward.ofWord⟩

theorem Onward.map {reader : Reader α} (onward : Onward source strict reader) (change : α → β) :
    Onward source strict (change <$> reader) := by
  intro position stands
  rw [map_apply]
  exact (onward position stands).map change _

theorem onward_readOne : Onward source strict readOne := by
  rintro position ⟨rest, shown⟩
  cases rest with
  | nil =>
      rw [readOne_of_nil shown]
      exact .of_ok (Nat.le_refl position) shown.stands
  | cons char rest =>
      rw [readOne_of_cons shown]
      exact .of_ok (Nat.le_succ position) shown.tail.stands

theorem onward_peek_one : Onward source strict (peek 1) := by
  rintro position ⟨rest, shown⟩
  rw [peek_one_of_shows shown]
  exact .of_ok (Nat.le_refl position) shown.stands

theorem onward_span (accepts : CodePoint → Bool) (limit : Option Nat) :
    Onward source strict (span accepts limit) := by
  rintro position ⟨rest, shown⟩
  rw [span_of_shows shown]
  exact .of_ok (Nat.le_add_right position _) (stands_behind_span shown accepts limit)

/-- Where strictness only refuses, it is enough that the lenient reader is onward. -/
theorem onward_of_lenient {reader : Bool → Reader α}
    (lenient : Onward source false (reader false))
    (lockstep : ∀ {position rest}, source.Shows position rest → Lockstep position position rest
      (reader true source position) (reader false source position)) (strict : Bool) :
    Onward source strict (reader strict) := by
  cases strict with
  | false => exact lenient
  | true =>
      rintro position ⟨rest, shown⟩
      cases lockstep shown with
      | together same silent wellFormed unpassed =>
          rw [same]
          exact (lenient position shown.stands).of_lenient
      | refused malformed first passed fails =>
          rw [fails]
          exact .of_error (.of_malformed (Escape.isMalformedEscape_refusal _ _)) shown.stands

/-- A character that is seen ahead can be read. -/
theorem readOne_of_peekOne {char : CodePoint} (shown : source.Shows position rest)
    (ahead : (peekOne source position).result = .ok (some char)) :
    readOne source position = ⟨.ok (some char), position + 1, []⟩ := by
  rw [peekOne_of_shows shown] at ahead
  cases rest with
  | nil => cases ahead
  | cons first rest =>
      cases ahead
      exact readOne_of_cons shown

end Reader

/-! ### The readers of sequences and words -/

namespace Escape

theorem onward_read (strict : Bool) : Onward source strict (read strict) := by
  rintro position ⟨rest, shown⟩
  rcases rest with _ | ⟨char, later⟩
  · rw [read_of_nil shown]
    cases strict with
    | true => exact .of_error rfl shown.stands
    | false => exact .of_ok (Nat.le_refl position) shown.stands
  by_cases refused : strict = true ∧ Meaningless char
  · obtain ⟨rfl, meaningless⟩ := refused
    rw [read_of_meaningless shown meaningless]
    exact .of_error rfl shown.stands
  · rw [read_of_sequence shown refused]
    have within := (further_isPrefix char later).length_le
    exact .of_ok (by omega) (shown.tail.drop within).stands

theorem onward_hexadecimal : Onward source strict hexadecimal := by
  rintro position ⟨rest, shown⟩
  rw [hexadecimal_of_shows shown rfl]
  exact .of_ok (Nat.le_add_right position _) (stands_behind_span shown _ none)

theorem onward_unicode : Onward source strict unicode := by
  rintro position ⟨rest, shown⟩
  rw [unicode_of_shows shown rfl]
  exact .of_ok (Nat.le_add_right position _) (stands_behind_span shown _ (some 4))

end Escape

theorem Quoted.onward_read (strict : Bool) : Onward source strict (read strict) := by
  refine onward_of_lenient ?_ Quoted.lockstep strict
  rintro position ⟨rest, shown⟩
  rcases read_cases shown with ⟨index, value, least, run⟩ | ⟨_, run⟩
  · have within : index + 1 ≤ rest.length := Text.lt_length_of_unescapedAt least.1
    rw [run]
    exact .of_ok (by omega) (shown.drop within).stands
  · rw [run]
    exact .of_error trivial shown.stands

theorem Bare.onward_read (strict : Bool) : Onward source strict (read strict) := by
  refine onward_of_lenient ?_ Bare.lockstep strict
  rintro position ⟨rest, shown⟩
  obtain ⟨index, value, least, run⟩ := read_reaches_end shown
  have within : index ≤ rest.length := least.2 (Or.inl rfl)
  rw [run]
  exact .of_ok (Nat.le_add_right position index) (shown.drop within).stands

theorem Braced.onward_read : Onward source strict read := by
  rintro position ⟨rest, shown⟩
  rcases read_cases shown with ⟨index, first, run⟩ | ⟨_, unmatched, _, _, run⟩
  · have within : index + 1 ≤ rest.length := Text.lt_length_of_unescapedAt first.1.1
    rw [run]
    exact .of_ok (by omega) (shown.drop within).stands
  · rw [run]
    exact .of_error trivial shown.stands

namespace Word

variable {char : CodePoint} {later : Text}

/-- The rest of a word is read on from the first character of the word. -/
theorem onward_body (strict : Bool) (shown : source.Shows start (char :: later)) :
    (rewindingTo start (readBody strict start char) source (start + 1)).Onward
      source strict start := by
  apply Run.Onward.rewound shown.stands
  unfold readBody
  split
  · exact (Quoted.onward_read strict _ shown.tail.stands).behind (Nat.le_succ start)
  split
  · exact (Braced.onward_read _ shown.tail.stands).behind (Nat.le_succ start)
  · rw [bind_of_ok (seek_of_shows shown _), Run.precededBy_nil]
    exact Bare.onward_read strict start shown.stands

theorem onward_read (strict : Bool) : Onward source strict (read strict) := by
  rintro position ⟨rest, shown⟩
  rcases Text.allBlank_or_word rest with blank | ⟨blanks, char, later, rfl, blank, notBlank⟩
  · rw [read_of_blank strict shown blank]
    exact .of_ok (Nat.le_add_right position _) (shown.drop (Nat.le_refl _)).stands
  · rw [read_of_word strict shown blank notBlank rfl]
    exact ((onward_body strict shown.append).map _ _).behind (Nat.le_add_right position _)

theorem onward_readValue (strict : Bool) : Onward source strict (readValue strict) := by
  intro position stands
  rw [← value_read strict stands]
  exact (onward_read strict).map _ position stands

theorem onward_readPast (strict : Bool) : Onward source strict (readPast strict) := by
  apply onward_peek_one.bind
  intro ahead
  split
  · exact (onward_span _ _).bind fun _ => onward_pure none
  · exact (onward_readValue strict).bind fun value? =>
      (onward_span _ _).bind fun _ => onward_pure value?

theorem onward_readPastMany (strict : Bool) (count : Nat) :
    Onward source strict (readPastMany strict count) := by
  induction count with
  | zero => exact onward_pure ()
  | succ count inductionHypothesis =>
      exact (onward_readPast strict).bind fun _ => inductionHypothesis

end Word

end Words

/-! ### Steps of a session -/

/-- Whether the call refuses malformed sequences. -/
def Call.strict : Call → Bool
  | .wordValue strict => strict
  | .pastWord strict => strict
  | .quoted strict => strict
  | .bare strict => strict
  | .escape strict => strict
  | .moveTo strict _ => strict
  | _ => false

/-- The call reads on from the position. It does not seek another one, and is not handed digits
that were read before. -/
def Call.ReadsOn : Call → Prop
  | .octal _ => False
  | .seek _ => False
  | .between _ _ => False
  | _ => True

def Step.strict : Step → Bool
  | .call made => made.strict
  | .nextWord strict => strict
  | _ => false

/-- The step reads on from the position and needs nothing that the session remembers. -/
def Step.ReadsOn : Step → Prop
  | .call made => made.ReadsOn
  | .nextWord _ => True
  | _ => False

section Sessions

variable {text : Text} {position : Nat}

/-- What a step in the text comes to. A place in the text is found, and one outside of it is
refused without a move. Every other step goes on, and only a word can be at fault. -/
inductive Step.Keeps (text : Text) (position : Nat) : Step → Run Reply → Prop where
  | found {target : Int} (inText : 0 ≤ target ∧ target ≤ text.length) :
      Keeps text position (.call (.seek target)) ⟨.ok .nothing, target.toNat, []⟩
  | refused {target : Int} (outside : target < 0 ∨ text.length < target) :
      Keeps text position (.call (.seek target))
        ⟨.error (.outsideText target text.length), position, []⟩
  | onward {step : Step} {run : Run Reply} (readsOn : step.ReadsOn)
      (forward : position ≤ run.position)
      (ofWord : ∀ fault, run.result = .error fault → fault.OfWord step.strict) :
      Keeps text position step run

/-- What steps made one after the other come to, each from where the one before it ended. -/
inductive Session.Kept (text : Text) : Nat → List Step → List (Run Reply) → Prop where
  | nil (position : Nat) : Kept text position [] []
  | cons {position : Nat} {step : Step} {steps : List Step} {run : Run Reply}
      {runs : List (Run Reply)} (inText : run.position ≤ text.length)
      (keeps : step.Keeps text position run) (later : Kept text run.position steps runs) :
      Kept text position (step :: steps) (run :: runs)

theorem Source.stands_indexed : (Source.indexed text).Stands position ↔ position ≤ text.length :=
  ⟨fun ⟨_, shown⟩ => shown.1, fun inText => (shows_indexed inText).stands⟩

theorem Call.onward_reader {call : Call} (readsOn : call.ReadsOn) :
    Onward (.indexed text) call.strict call.reader := by
  cases call with
  | wordValue strict => exact (Word.onward_readValue strict).map _
  | pastWord strict => exact (Word.onward_readPast strict).map _
  | quoted strict => exact (Quoted.onward_read strict).map _
  | bare strict => exact (Bare.onward_read strict).map _
  | braced => exact Braced.onward_read.map _
  | escape strict => exact (Escape.onward_read strict).map _
  | moveTo strict number => exact (Word.onward_readPastMany strict _).map _
  | hexadecimal => exact Escape.onward_hexadecimal.map _
  | unicode => exact Escape.onward_unicode.map _
  | octal first => exact readsOn.elim
  | span accepted limit => exact (onward_span _ _).map _
  | blanks => exact (onward_span _ _).map _
  | spacesAndTabs => exact (onward_span _ _).map _
  | one => exact onward_readOne.map _
  | peek count =>
      have onward : Onward (.indexed text) false (Reader.peek count) :=
        fun position stands => .of_ok (Nat.le_refl position) stands
      exact onward.map _
  | seek target => exact readsOn.elim
  | between first last => exact readsOn.elim

namespace Session

variable {session : Session} {step : Step}

/-- The step can be made, and the session goes on in the text from where its run ended. -/
structure Made (text : Text) (session : Session) (step : Step) (run : Run Reply)
    (next : Session) : Prop where
  made : session.step? step = some (run, next)
  onText : next.source = .indexed text
  goesOn : next.position = run.position
  inText : run.position ≤ text.length
  keeps : step.Keeps text session.position run

private theorem made_of_onward (readsOn : step.ReadsOn) {run : Run Reply} {next : Session}
    (made : session.step? step = some (run, next)) (onText : next.source = .indexed text)
    (goesOn : next.position = run.position)
    (onward : run.Onward (.indexed text) step.strict session.position) :
    Made text session step run next :=
  ⟨made, onText, goesOn, Source.stands_indexed.mp onward.stands,
    .onward readsOn onward.forward onward.ofWord⟩

private theorem made_seek (onText : session.source = .indexed text)
    (inText : session.position ≤ text.length) (target : Int) :
    ∃ run next, Made text session (.call (.seek target)) run next := by
  have run : (Call.seek target).reader session.source session.position =
      ((fun _ => Reply.nothing) <$> Reader.seek target) (.indexed text) session.position := by
    rw [onText]
    rfl
  rw [map_apply, Reader.seek, Source.seek?] at run
  by_cases within : 0 ≤ target ∧ target ≤ text.length
  · rw [if_pos within] at run
    refine ⟨_, _, rfl, onText, rfl, ?_, ?_⟩
    · rw [run]
      show target.toNat ≤ text.length
      omega
    · rw [run]
      exact .found within
  · rw [if_neg within] at run
    refine ⟨_, _, rfl, onText, rfl, ?_, ?_⟩
    · rw [run]
      exact inText
    · rw [run]
      exact .refused (by omega)

theorem exists_made (onText : session.source = .indexed text)
    (inText : session.position ≤ text.length)
    (reads : step.ReadsOn ∨ ∃ target, step = .call (.seek target)) :
    ∃ run next, Made text session step run next := by
  rcases reads with readsOn | ⟨target, rfl⟩
  · have stands := Source.stands_indexed.mpr inText
    cases step with
    | call made =>
        have onward : (made.reader session.source session.position).Onward (.indexed text)
            made.strict session.position := by
          rw [onText]
          exact Call.onward_reader readsOn _ stands
        exact ⟨_, _, made_of_onward readsOn rfl onText rfl onward⟩
    | nextWord strict =>
        have onward : (Word.read strict session.source session.position).Onward (.indexed text)
            strict session.position := by
          rw [onText]
          exact Word.onward_read strict _ stands
        have remembered := remember_keeps session
          (Word.read strict session.source session.position)
        exact ⟨_, _, made_of_onward readsOn rfl (remembered.1.trans onText) remembered.2.1
          (onward.map Reply.ofWord? _)⟩
    | mark name => exact readsOn.elim
    | goTo name => exact readsOn.elim
    | allWords strict => exact readsOn.elim
    | iterate strict => exact readsOn.elim
    | next number => exact readsOn.elim
    | wordSource index => exact readsOn.elim
    | accept => exact readsOn.elim
  · exact made_seek onText inText target

/-- Every list of steps can be made, and each of them keeps to the text. -/
theorem exists_kept (onText : session.source = .indexed text)
    (inText : session.position ≤ text.length) (steps : List Step)
    (reads : ∀ step ∈ steps, step.ReadsOn ∨ ∃ target, step = .call (.seek target)) :
    ∃ runs, session.run? steps = some runs ∧ Kept text session.position steps runs := by
  induction steps generalizing session with
  | nil => exact ⟨[], rfl, .nil session.position⟩
  | cons step steps inductionHypothesis =>
      obtain ⟨run, next, made⟩ := exists_made onText inText (reads step List.mem_cons_self)
      have stays : next.position ≤ text.length := made.goesOn ▸ made.inText
      obtain ⟨runs, laterRuns, later⟩ := inductionHypothesis made.onText stays
        fun other member => reads other (List.mem_cons_of_mem step member)
      rw [made.goesOn] at later
      refine ⟨run :: runs, ?_, .cons made.inText made.keeps later⟩
      rw [run?_cons, made.made]
      show (next.run? steps).map _ = _
      rw [laterRuns]
      rfl

end Session

end Sessions

/-- **Only words are at fault.** In a text in memory, steps that read on and steps that seek any
position can be made in every order. The position stays in the text, and goes back only where it
is sought. A position outside of the text is refused. Every other step succeeds or finds a word
at fault, which has no end or, for a strict reader, a malformed sequence. And no reader that has
looked ahead comes to the end of the input: a character that is seen ahead can be read. -/
theorem only_words_are_at_fault {text : Text} {position : Nat} (inText : position ≤ text.length)
    (steps : List Step)
    (reads : ∀ step ∈ steps, step.ReadsOn ∨ ∃ target, step = .call (.seek target)) :
    (∃ runs, (Session.start (.indexed text) position).run? steps = some runs ∧
      Session.Kept text position steps runs) ∧
    ∀ here ≤ text.length, ∀ char,
      (Reader.peekOne (.indexed text) here).result = .ok (some char) →
        Reader.readOne (.indexed text) here = ⟨.ok (some char), here + 1, []⟩ := by
  refine ⟨Session.exists_kept rfl inText steps reads, fun here hereInText char ahead => ?_⟩
  exact Reader.readOne_of_peekOne (Source.shows_indexed hereInText) ahead

/-- A strict reader meets a malformed sequence and a lenient one the end of the text, both go
back to where the word began, places outside of the text are refused on either side, and the
session goes on. -/
theorem only_words_are_at_fault_across_seeks :
    let text := Text.ofString "a \"b\\q"
    let steps : List Step :=
      [.call (.wordValue true), .nextWord true, .nextWord false, .call (.seek 7),
        .call (.seek (-1)), .call (.seek 0), .call (.pastWord true)]
    (∃ runs, (Session.start (.indexed text) 0).run? steps = some runs ∧
      Session.Kept text 0 steps runs ∧ runs.map Run.position = [1, 2, 2, 2, 2, 0, 2] ∧
        runs.map Run.result =
          [.ok (.text (Text.ofString "a")), .error (.unknownEscape (.ofChar 'q') 5),
            .error (.unterminatedQuote 3), .error (.outsideText 7 6),
            .error (.outsideText (-1) 6), .ok .nothing, .ok (.text (Text.ofString "a"))]) ∧
      Reader.readOne (.indexed text) 5 = ⟨.ok (some (.ofChar 'q')), 6, []⟩ := by
  intro text steps
  have reads : ∀ step ∈ steps, step.ReadsOn ∨ ∃ target, step = .call (.seek target) := by
    simp [steps, Step.ReadsOn, Call.ReadsOn]
  have positions : ((Session.start (.indexed text) 0).run? steps).map (List.map Run.position) =
      some [1, 2, 2, 2, 2, 0, 2] := by decide +kernel
  have results : ((Session.start (.indexed text) 0).run? steps).map (List.map Run.result) =
      some [.ok (.text (Text.ofString "a")), .error (.unknownEscape (.ofChar 'q') 5),
        .error (.unterminatedQuote 3), .error (.outsideText 7 6), .error (.outsideText (-1) 6),
        .ok .nothing, .ok (.text (Text.ofString "a"))] := by decide +kernel
  obtain ⟨⟨runs, made, kept⟩, reading⟩ := only_words_are_at_fault (Nat.zero_le _) steps reads
  rw [made] at positions results
  exact ⟨⟨runs, made, kept, Option.some.inj positions, Option.some.inj results⟩,
    reading 5 (by decide) _ (by decide +kernel)⟩

end TclWords
