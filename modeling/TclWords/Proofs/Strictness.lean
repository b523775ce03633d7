import Mathlib.Control.Monad.Basic
import TclWords.Proofs.Bracing
import TclWords.Proofs.Scanning
import TclWords.Proofs.Shown.Sequence

/-!
Strictness only ever refuses.

Owns: the backslash sequences that are malformed, as places of a text; `OnlyRejects`, by which
a strict run is the lenient one unless that gets past a malformed sequence; and that the
readers of words, and the scan of a text, are of this kind.

The two runs of a reader stay together from piece to piece until the first malformed sequence,
where the strict one fails and the lenient one goes on. That is `Lockstep`, from which the
statement about whole runs follows.
-/

namespace TclWords

open TclWords.Reader

/-! ### Malformed sequences -/

/-- The faults of backslash sequences, which only strict readers find. -/
def Fault.IsMalformedEscape : Fault → Prop
  | .danglingBackslash _ => True
  | .unknownEscape _ _ => True
  | _ => False

/-- At `index` an unescaped backslash stands, and behind it the end of the text or a letter or
digit that begins no sequence. -/
def Text.MalformedAt (text : Text) (index : Nat) : Prop :=
  text.UnescapedAt .backslash index ∧ ∀ char ∈ text[index + 1]?, Escape.Meaningless char

instance (text : Text) (index : Nat) : Decidable (text.MalformedAt index) :=
  inferInstanceAs (Decidable (_ ∧ _))

/-- The fault of a strict reader that is behind a backslash. -/
def Escape.refusal (position : Nat) (behind : Text) : Fault :=
  match behind.head? with
  | none => .danglingBackslash position
  | some char => .unknownEscape char position

theorem Escape.isMalformedEscape_refusal (position : Nat) (behind : Text) :
    (refusal position behind).IsMalformedEscape := by
  unfold refusal
  split <;> trivial

theorem Escape.isReadFault_refusal (position : Nat) (behind : Text) :
    (refusal position behind).IsReadFault := by
  unfold refusal
  split <;> trivial

/-- The run got past `place`: it ended behind it, or it failed, which a lenient reader does
at the end of the input only. -/
def Run.Passed {α : Type} (run : Run α) (place : Nat) : Prop :=
  ∀ value, run.result = .ok value → place < run.position

/-- Of two runs that decode the sequences of `text`, which stands at `origin`, the strict one
is the lenient one, with no warning, unless the latter gets past a malformed sequence. Then
the strict one refuses the first of these, and names the position behind its backslash. -/
structure OnlyRejects {α : Type} (origin : Nat) (text : Text) (strictRun lenientRun : Run α) :
    Prop where
  silent : strictRun.warnings = []
  agrees : (∀ fault, strictRun.result = .error fault → ¬ fault.IsMalformedEscape) →
    lenientRun = strictRun
  refuses_iff :
    (∃ fault, strictRun.result = .error fault ∧ fault.IsMalformedEscape) ↔
      ∃ index, text.MalformedAt index ∧ lenientRun.Passed (origin + index)
  names_first : ∀ index, text.MalformedAt index → lenientRun.Passed (origin + index) →
    (∀ earlier < index, ¬ text.MalformedAt earlier) →
      strictRun.result = .error (Escape.refusal (origin + index + 1) (text.drop (index + 1)))

namespace Text

variable {unit rest tail : Text} {char : CodePoint} {index : Nat}

theorem malformedAt_append (whole : ¬ unit.Escapes) :
    MalformedAt (unit ++ rest) (unit.length + index) ↔ rest.MalformedAt index := by
  unfold MalformedAt
  rw [unescapedAt_append_right whole, Nat.add_assoc,
    List.getElem?_append_right (Nat.le_add_right _ _), Nat.add_sub_cancel_left]

theorem MalformedAt.lt_length (malformed : rest.MalformedAt index) : index < rest.length :=
  lt_length_of_unescapedAt malformed.1

/-- Malformed sequences begin with a backslash. -/
theorem not_malformedAt_zero (notBackslash : rest.head? ≠ some .backslash) :
    ¬ rest.MalformedAt 0 := by
  intro malformed
  apply notBackslash
  rw [List.head?_eq_getElem?]
  exact malformed.1.1

theorem malformedAt_dangling : MalformedAt [.backslash] 0 :=
  ⟨⟨rfl, not_escapes_nil⟩, by rintro char member; cases member⟩

theorem malformedAt_meaningless (meaningless : Escape.Meaningless char) (rest : Text) :
    MalformedAt (.backslash :: char :: rest) 0 := by
  refine ⟨⟨rfl, not_escapes_nil⟩, ?_⟩
  rintro other member
  cases member
  exact meaningless

/-- A sequence with a meaning is not malformed, nor is any part of it. -/
theorem not_malformedAt_sequence (meant : ¬ Escape.Meaningless char) (rest : Text)
    {later : Text} (inSequence : index < (.backslash :: char :: Escape.further char rest).length) :
    ¬ MalformedAt (.backslash :: char :: Escape.further char rest ++ later) index := by
  rintro ⟨unescaped, malformed⟩
  rw [unescapedAt_append_left inSequence] at unescaped
  have noBackslash : .backslash ∉ Escape.further char rest :=
    Escape.notMem_further (by decide) (by decide) rest
  rcases unescapedAt_sequence noBackslash unescaped with ⟨atStart, _⟩
  subst atStart
  exact meant (malformed char rfl)

end Text

/-! ### Two runs in step -/

/-- A strict and a lenient run of a reader that begins at `origin`: they are the same run,
which does not get past a malformed sequence, or the strict one fails at the first of those
and is back at `home`. -/
inductive Lockstep {α : Type} (origin home : Nat) (text : Text) (strictRun lenientRun : Run α) :
    Prop where
  | together (same : strictRun = lenientRun) (silent : lenientRun.warnings = [])
      (wellFormed : ∀ fault, lenientRun.result = .error fault → ¬ fault.IsMalformedEscape)
      (unpassed : ∀ index, text.MalformedAt index → ¬ lenientRun.Passed (origin + index))
  | refused {index : Nat} (malformed : text.MalformedAt index)
      (first : ∀ earlier < index, ¬ text.MalformedAt earlier)
      (passed : lenientRun.Passed (origin + index))
      (fails : strictRun =
        ⟨.error (Escape.refusal (origin + index + 1) (text.drop (index + 1))), home, []⟩)

namespace Lockstep

variable {α β : Type} {origin home : Nat} {text : Text} {strictRun lenientRun : Run α}

theorem onlyRejects (lockstep : Lockstep origin home text strictRun lenientRun) :
    OnlyRejects origin text strictRun lenientRun := by
  cases lockstep with
  | together same silent wellFormed unpassed =>
      subst same
      refine ⟨silent, fun _ => rfl, ?_, ?_⟩
      · refine iff_of_false ?_ ?_
        · rintro ⟨fault, failed, malformed⟩
          exact wellFormed fault failed malformed
        · rintro ⟨index, malformed, passed⟩
          exact unpassed index malformed passed
      · exact fun index malformed passed => absurd passed (unpassed index malformed)
  | @refused index malformed first passed fails =>
      subst fails
      have ofEscape := Escape.isMalformedEscape_refusal (origin + index + 1)
        (text.drop (index + 1))
      refine ⟨rfl, fun wellFormed => absurd ofEscape (wellFormed _ rfl), ?_, ?_⟩
      · exact iff_of_true ⟨_, rfl, ofEscape⟩ ⟨index, malformed, passed⟩
      · intro other malformedOther _ firstOther
        have same : other = index := by
          rcases Nat.lt_trichotomy other index with before | same | behind
          · exact absurd malformedOther (first other before)
          · exact same
          · exact absurd malformed (firstOther index behind)
        rw [same]

/-- Two runs that are in step behind a piece are in step from its beginning on, if it escapes
nothing and is not malformed. -/
theorem behind {unit : Text} (whole : ¬ unit.Escapes)
    (wellFormed : ∀ index < unit.length, ¬ Text.MalformedAt (unit ++ text) index)
    (lockstep : Lockstep (origin + unit.length) home text strictRun lenientRun) :
    Lockstep origin home (unit ++ text) strictRun lenientRun := by
  have malformedAt : ∀ index, Text.MalformedAt (unit ++ text) index →
      ∃ later, index = unit.length + later ∧ text.MalformedAt later := by
    intro index malformed
    have notInUnit : unit.length ≤ index :=
      Nat.le_of_not_lt fun inUnit => wellFormed index inUnit malformed
    refine ⟨index - unit.length, by omega, ?_⟩
    rwa [← Text.malformedAt_append whole, Nat.add_sub_cancel' notInUnit]
  cases lockstep with
  | together same silent unmalformed unpassed =>
      refine .together same silent unmalformed fun index malformed passed => ?_
      rcases malformedAt index malformed with ⟨later, atLater, malformedLater⟩
      rw [atLater, ← Nat.add_assoc] at passed
      exact unpassed later malformedLater passed
  | @refused index malformed first passed fails =>
      refine .refused ((Text.malformedAt_append whole).mpr malformed) ?_ ?_ ?_
      · intro earlier before malformedEarlier
        rcases malformedAt earlier malformedEarlier with ⟨later, atLater, malformedLater⟩
        exact first later (by omega) malformedLater
      · rw [← Nat.add_assoc]
        exact passed
      · rw [fails, ← Nat.add_assoc origin, Nat.add_assoc unit.length, List.drop_length_add_append]

/-- A change of the value, which may use the position, keeps two runs in step. -/
theorem map (lockstep : Lockstep origin home text strictRun lenientRun)
    (change : Nat → α → β) :
    Lockstep origin home text
      ⟨strictRun.result.map (change strictRun.position), strictRun.position,
        strictRun.warnings⟩
      ⟨lenientRun.result.map (change lenientRun.position), lenientRun.position,
        lenientRun.warnings⟩ := by
  have passed_iff : ∀ place,
      Run.Passed ⟨lenientRun.result.map (change lenientRun.position), lenientRun.position,
        lenientRun.warnings⟩ place ↔ lenientRun.Passed place := by
    intro place
    rcases lenientRun with ⟨fault | value, after, warnings⟩
    · exact iff_of_true (fun value failed => by cases failed) (fun value failed => by cases failed)
    · exact ⟨fun passed _ _ => passed _ rfl, fun passed _ _ => passed _ rfl⟩
  cases lockstep with
  | together same silent wellFormed unpassed =>
      refine .together (by rw [same]) silent ?_ fun index malformed => ?_
      · rcases lenientRun with ⟨fault | value, after, warnings⟩
        · intro other failed
          cases failed
          exact wellFormed fault rfl
        · intro other failed
          cases failed
      · rw [passed_iff]
        exact unpassed index malformed
  | refused malformed first passed fails =>
      refine .refused malformed first ((passed_iff _).mpr passed) ?_
      rw [fails]
      rfl

/-- Going back over a fault keeps two runs in step, and moves the strict one. -/
theorem rewound {strictReader lenientReader : Reader α} {source : Source} {here start : Nat}
    (stands : source.Stands start)
    (lockstep : Lockstep origin home text (strictReader source here) (lenientReader source here)) :
    Lockstep origin start text (rewindingTo start strictReader source here)
      (rewindingTo start lenientReader source here) := by
  rcases stands with ⟨rest, shown⟩
  have kept : (rewindingTo start lenientReader source here).result =
        (lenientReader source here).result ∧
      (rewindingTo start lenientReader source here).warnings =
        (lenientReader source here).warnings := by
    rcases run : lenientReader source here with ⟨fault | value, after, warnings⟩
    · by_cases ofWord : fault.IsReadFault
      · rw [rewindingTo_of_error shown run ofWord]
        exact ⟨rfl, rfl⟩
      · rw [rewindingTo, run]
        simp only [if_neg ofWord, and_self]
    · rw [rewindingTo_eq_ok_iff.mpr run]
      exact ⟨rfl, rfl⟩
  have passed_iff : ∀ place, (rewindingTo start lenientReader source here).Passed place ↔
      (lenientReader source here).Passed place := by
    intro place
    unfold Run.Passed
    rw [kept.1]
    rcases run : lenientReader source here with ⟨fault | value, after, warnings⟩
    · exact iff_of_true (fun value failed => by cases failed) (fun value failed => by cases failed)
    · rw [rewindingTo_eq_ok_iff.mpr run]
  cases lockstep with
  | together same silent wellFormed unpassed =>
      refine .together ?_ (kept.2.trans silent) ?_ fun index malformed => ?_
      · rw [rewindingTo, rewindingTo, same]
      · rw [kept.1]
        exact wellFormed
      · rw [passed_iff]
        exact unpassed index malformed
  | refused malformed first passed fails =>
      exact .refused malformed first ((passed_iff _).mpr passed)
        (rewindingTo_of_error shown fails (Escape.isReadFault_refusal _ _))

end Lockstep

/-! ### Readers that decode -/

/-- The steps of a reader that decodes backslash sequences strictly or not. Only there
strictness counts: each other step takes one character for itself, ends the word with no more
than the character shown, or finds the end of the input. -/
structure Decodes (source : Source) (start : Nat) (step : Bool → Reader (Option CodePoint)) :
    Prop where
  forward : ∀ strict, Forward (step strict)
  sequences : ∀ strict position rest, source.Shows position (.backslash :: rest) →
    step strict source position =
      (some <$> rewindingTo start (Escape.read strict)) source (position + 1)
  others : ∀ position rest, source.Shows position rest → rest.head? ≠ some .backslash →
    (∃ char later, rest = char :: later ∧
      ∀ strict, step strict source position = ⟨.ok (some char), position + 1, []⟩) ∨
    (∃ after, after ≤ position + 1 ∧
      ∀ strict, step strict source position = ⟨.ok none, after, []⟩) ∨
    (rest = [] ∧ ∃ fault after, ¬ Fault.IsMalformedEscape fault ∧
      ∀ strict, step strict source position = ⟨.error fault, after, []⟩)

theorem Quoted.decodes {source : Source} {start : Nat} (opened : source.Stands start) :
    Decodes source start fun strict => Quoted.step strict start where
  forward := fun strict => forward_step strict start
  sequences := fun strict _ _ shown => step_of_backslash strict shown
  others := by
    intro position rest shown notBackslash
    rcases rest with _ | ⟨char, later⟩
    · exact Or.inr (Or.inr ⟨rfl, .unterminatedQuote start, start, id,
        fun strict => step_of_nil strict opened shown⟩)
    by_cases isQuote : char = .doubleQuote
    · subst isQuote
      exact Or.inr (Or.inl ⟨position + 1, Nat.le_refl _, fun strict => step_of_quote strict shown⟩)
    · exact Or.inl ⟨char, later, rfl, fun strict => step_of_plain strict shown isQuote
        fun isBackslash => notBackslash (congrArg some isBackslash)⟩

theorem Bare.decodes (source : Source) (start : Nat) :
    Decodes source start fun strict => Bare.step strict start where
  forward := fun strict => forward_step strict start
  sequences := fun strict _ _ shown => step_of_backslash strict shown
  others := by
    intro position rest shown notBackslash
    by_cases ends : ∀ char ∈ rest.head?, char.isBlank = true
    · exact Or.inr (Or.inl ⟨position, Nat.le_succ position,
        fun strict => step_of_end strict shown ends⟩)
    obtain ⟨char, later, rfl, notBlank⟩ := Text.begins_word ends
    exact Or.inl ⟨char, later, rfl, fun strict => step_of_plain strict shown notBlank
      fun isBackslash => notBackslash (congrArg some isBackslash)⟩

namespace Decodes

variable {source : Source} {start position : Nat} {rest : Text}
  {step : Bool → Reader (Option CodePoint)} {consuming : ∀ strict, Consuming (step strict)}

/-- Behind its first character a run of the reader has got past the position. -/
private theorem passed_of_item (decodes : Decodes source start step) {strict : Bool} {between : Nat}
    {char : CodePoint} {warnings : List Warning}
    (stepRun : step strict source position = ⟨.ok (some char), between, warnings⟩)
    (further : position < between) :
    (repeatedly (step strict) (consuming strict) source position).Passed position := by
  rcases restRun : repeatedly (step strict) (consuming strict) source between with
    ⟨result, after, later⟩
  rw [repeatedly_of_some stepRun restRun]
  rcases result with fault | items
  · exact fun value failed => by cases failed
  · have bounds := forward_repeatedly (consuming strict) (decodes.forward strict) source between
      items after later restRun
    exact fun _ _ => Nat.lt_of_lt_of_le further bounds.1

/-- Two runs that take the same piece are in step if they are behind it. -/
private theorem lockstep_of_unit {unit : Text} {char : CodePoint} (whole : ¬ unit.Escapes)
    (wellFormed : ∀ index < unit.length, ¬ Text.MalformedAt (unit ++ rest) index)
    (stepRun : ∀ strict, step strict source position =
      ⟨.ok (some char), position + unit.length, []⟩)
    (later : Lockstep (position + unit.length) start rest
      (repeatedly (step true) (consuming true) source (position + unit.length))
      (repeatedly (step false) (consuming false) source (position + unit.length))) :
    Lockstep position start (unit ++ rest)
      (repeatedly (step true) (consuming true) source position)
      (repeatedly (step false) (consuming false) source position) := by
  have run : ∀ strict, repeatedly (step strict) (consuming strict) source position =
      ⟨(repeatedly (step strict) (consuming strict) source
          (position + unit.length)).result.map (char :: ·),
        (repeatedly (step strict) (consuming strict) source (position + unit.length)).position,
        (repeatedly (step strict) (consuming strict) source (position + unit.length)).warnings⟩ :=
    fun strict => repeatedly_of_some (stepRun strict) rfl
  rw [run true, run false]
  exact (later.map fun _ => (char :: ·)).behind whole wellFormed

/-- At the end of the word, or of the input, the two runs are the same. -/
private theorem lockstep_of_end {result : Except Fault (Option CodePoint)} {after : Nat}
    (notBackslash : rest.head? ≠ some .backslash)
    (stepRun : ∀ strict, step strict source position = ⟨result, after, []⟩)
    (ended : (result = .ok none ∧ after ≤ position + 1) ∨
      rest = [] ∧ ∃ fault, result = .error fault ∧ ¬ fault.IsMalformedEscape) :
    Lockstep position start rest
      (repeatedly (step true) (consuming true) source position)
      (repeatedly (step false) (consuming false) source position) := by
  rcases ended with ⟨isNone, near⟩ | ⟨nothing, fault, isError, wellFormed⟩
  · subst isNone
    rw [repeatedly_of_none (stepRun true), repeatedly_of_none (stepRun false)]
    refine .together rfl rfl (fun fault failed => by cases failed) fun index malformed passed => ?_
    have place := passed [] rfl
    rcases index with _ | index
    · exact Text.not_malformedAt_zero notBackslash malformed
    · simp only at place
      omega
  · subst isError nothing
    have run : ∀ strict, repeatedly (step strict) (consuming strict) source position =
        ⟨.error fault, after, []⟩ :=
      fun strict => collect_of_error (bind_of_error (stepRun strict))
    rw [run true, run false]
    refine .together rfl rfl ?_ fun index malformed => ?_
    · rintro other failed
      cases failed
      exact wellFormed
    · exact absurd malformed.lt_length (Nat.not_lt_zero index)

/-- The strict run refuses the first character that is read; the lenient one goes on. -/
private theorem lockstep_of_refusal (decodes : Decodes source start step)
    (opened : source.Stands start) (shown : source.Shows position (.backslash :: rest))
    (malformed : Text.MalformedAt (.backslash :: rest) 0)
    (refuses : Escape.read true source (position + 1) =
      ⟨.error (Escape.refusal (position + 1) rest), position + 1, []⟩)
    {char : CodePoint} {between : Nat} {warnings : List Warning}
    (keeps : Escape.read false source (position + 1) = ⟨.ok char, between, warnings⟩)
    (further : position < between) :
    Lockstep position start (.backslash :: rest)
      (repeatedly (step true) (consuming true) source position)
      (repeatedly (step false) (consuming false) source position) := by
  rcases opened with ⟨contents, openShown⟩
  have strictStep : step true source position =
      ⟨.error (Escape.refusal (position + 1) rest), start, []⟩ := by
    rw [decodes.sequences true position rest shown, map_apply,
      rewindingTo_of_error openShown refuses (Escape.isReadFault_refusal _ _)]
    rfl
  have lenientStep : step false source position = ⟨.ok (some char), between, warnings⟩ := by
    rw [decodes.sequences false position rest shown, map_apply, rewindingTo_eq_ok_iff.mpr keeps]
    rfl
  refine .refused malformed (fun earlier before => absurd before (Nat.not_lt_zero earlier))
    (decodes.passed_of_item lenientStep further) ?_
  exact collect_of_error (bind_of_error strictStep)

/-- A sequence with a meaning is taken by both runs. -/
private theorem step_of_sequence (decodes : Decodes source start step)
    {char : CodePoint} {later : Text} (shown : source.Shows position (.backslash :: char :: later))
    (meant : ¬ Escape.Meaningless char) (strict : Bool) :
    step strict source position =
      ⟨.ok (some (Escape.decoded char (Escape.further char later))),
        position + (.backslash :: char :: Escape.further char later).length, []⟩ := by
  have sequence : Escape.read strict source (position + 1) = _ :=
    Escape.read_of_sequence shown.tail fun refused => meant refused.2
  rw [decodes.sequences strict position _ shown, map_apply, rewindingTo_eq_ok_iff.mpr sequence,
    List.length_cons, List.length_cons, Nat.add_assoc position, Nat.add_assoc position,
    Nat.add_comm _ (_ + 1), Nat.add_comm (1 + 1)]
  rfl

theorem lockstep (decodes : Decodes source start step)
    (consuming : ∀ strict, Consuming (step strict)) (opened : source.Stands start)
    (shown : source.Shows position rest) :
    Lockstep position start rest
      (repeatedly (step true) (consuming true) source position)
      (repeatedly (step false) (consuming false) source position) := by
  -- On the length of the text shown, as a sequence takes any number of characters.
  induction remaining : rest.length using Nat.strongRecOn generalizing rest position with
  | ind count inductionHypothesis =>
      by_cases notBackslash : rest.head? ≠ some .backslash
      · rcases decodes.others position rest shown notBackslash with
          ⟨char, later, same, stepRun⟩ | ⟨after, near, stepRun⟩ |
          ⟨nothing, fault, after, wellFormed, stepRun⟩
        · subst same
          have notIt : char ≠ .backslash :=
            fun isBackslash => notBackslash (congrArg some isBackslash)
          refine lockstep_of_unit (Text.not_escapes_singleton notIt) ?_ stepRun
            (inductionHypothesis later.length (remaining ▸ Nat.lt_succ_self _) shown.tail rfl)
          intro index inUnit
          rw [Nat.lt_one_iff.mp inUnit]
          exact Text.not_malformedAt_zero notBackslash
        · exact lockstep_of_end notBackslash stepRun (Or.inl ⟨rfl, near⟩)
        · exact lockstep_of_end notBackslash stepRun (Or.inr ⟨nothing, fault, rfl, wellFormed⟩)
      rcases List.head?_eq_some_iff.mp (not_not.mp notBackslash) with ⟨behind, same⟩
      subst same
      rcases behind with _ | ⟨char, later⟩
      · exact lockstep_of_refusal decodes opened shown Text.malformedAt_dangling
          (Escape.read_of_nil shown.tail true) (Escape.read_of_nil shown.tail false)
          (Nat.lt_succ_self position)
      by_cases meaningless : Escape.Meaningless char
      · have keeps : Escape.read false source (position + 1) = _ :=
          Escape.read_of_sequence shown.tail fun refused => Bool.false_ne_true refused.1
        exact lockstep_of_refusal decodes opened shown
          (Text.malformedAt_meaningless meaningless later)
          (Escape.read_of_meaningless shown.tail meaningless) keeps (by omega)
      · have stepRun := step_of_sequence decodes shown meaningless
        rcases Escape.further_isPrefix char later with ⟨beyond, same⟩
        have whole := Escape.not_escapes_sequence char later
        have wellFormed : ∀ index < (.backslash :: char :: Escape.further char later).length,
            ¬ Text.MalformedAt (.backslash :: char :: Escape.further char later ++ beyond) index :=
          fun _ => Text.not_malformedAt_sequence meaningless later
        generalize Escape.further char later = tail at stepRun same whole wellFormed
        subst same
        have shownParts : source.Shows position ((.backslash :: char :: tail) ++ beyond) := shown
        have shorter : beyond.length < count := by
          rw [← remaining, List.length_cons, List.length_cons, List.length_append]
          omega
        exact lockstep_of_unit whole wellFormed stepRun
          (inductionHypothesis beyond.length shorter shownParts.append rfl)

end Decodes

/-! ### Words -/

section Words

variable {source : Source} {position : Nat} {rest blanks later : Text} {char : CodePoint}

theorem Quoted.lockstep (shown : source.Shows position rest) :
    Lockstep position position rest (Quoted.read true source position)
      (Quoted.read false source position) := by
  rw [Quoted.read_of_shows true shown, Quoted.read_of_shows false shown]
  exact (Quoted.decodes shown.stands).lockstep
    (fun strict => Quoted.consuming_step strict position) shown.stands shown

theorem Bare.lockstep (shown : source.Shows position rest) :
    Lockstep position position rest (Bare.read true source position)
      (Bare.read false source position) := by
  rw [Bare.read_of_shows true shown, Bare.read_of_shows false shown]
  exact (Bare.decodes source position).lockstep
    (fun strict => Bare.consuming_step strict position) shown.stands shown

/-- Reading a braced word is no matter of strictness. -/
theorem Braced.lockstep (shown : source.Shows position rest) (origin : Nat) :
    Lockstep origin position [] (Braced.read source position) (Braced.read source position) := by
  have nothing : ∀ index, ¬ Text.MalformedAt [] index :=
    fun index malformed => absurd malformed.lt_length (Nat.not_lt_zero index)
  rcases Braced.read_cases shown with ⟨index, _, run⟩ | ⟨_, unmatched, _, _, run⟩
  · rw [run]
    exact .together rfl rfl (fun fault failed => by cases failed)
      fun index malformed => absurd malformed (nothing index)
  · rw [run]
    refine .together rfl rfl ?_ fun index malformed => absurd malformed (nothing index)
    rintro fault failed
    cases failed
    exact id

namespace Word

/-- How many characters stand in front of the part of the text in which its first word decodes
sequences: its blanks and an opening quote, and all of them if the word is in braces. -/
def undecoded (rest : Text) : Nat :=
  let blanks := (rest.takeWhile CodePoint.isBlank).length
  if rest[blanks]? = some .doubleQuote then blanks + 1
  else if rest[blanks]? = some .openBrace then rest.length
  else blanks

private theorem undecoded_of_blank (blank : AllBlank rest) : undecoded rest = rest.length := by
  have taken : (rest ++ []).takeWhile CodePoint.isBlank = rest :=
    blank.takeWhile_append (by intro char member; cases member)
  rw [List.append_nil] at taken
  rw [undecoded, taken, List.getElem?_eq_none (Nat.le_refl _)]
  rfl

private theorem undecoded_of_word (blank : AllBlank blanks) (notBlank : char.isBlank = false)
    (later : Text) :
    undecoded (blanks ++ char :: later) =
      if char = .doubleQuote then blanks.length + 1
      else if char = .openBrace then (blanks ++ char :: later).length
      else blanks.length := by
  have taken : (blanks ++ char :: later).takeWhile CodePoint.isBlank = blanks :=
    blank.takeWhile_append (by intro first member; cases member; exact notBlank)
  have first : (blanks ++ char :: later)[blanks.length]? = some char := by
    rw [List.getElem?_append_right (Nat.le_refl _), Nat.sub_self, List.getElem?_cons_zero]
  rw [undecoded, taken, first]
  simp only [Option.some.injEq]

/-- The rest of a word is read in step from its first character on, and at fault both runs are
back there. -/
private theorem lockstep_body (shown : source.Shows position (blanks ++ char :: later))
    (blank : AllBlank blanks) (notBlank : char.isBlank = false) :
    let start := position + blanks.length
    let skipped := undecoded (blanks ++ char :: later)
    Lockstep (position + skipped) start ((blanks ++ char :: later).drop skipped)
      (rewindingTo start (readBody true start char) source (start + 1))
      (rewindingTo start (readBody false start char) source (start + 1)) := by
  intro start skipped
  have atStart : source.Shows start (char :: later) := shown.append
  have skips : skipped = _ := undecoded_of_word blank notBlank later
  by_cases isQuote : char = .doubleQuote
  · have body : ∀ strict, readBody strict start char = Quoted.read strict :=
      fun strict => if_pos isQuote
    rw [if_pos isQuote] at skips
    rw [body true, body false, skips, ← Nat.add_assoc, List.drop_length_add_append]
    exact (Quoted.lockstep atStart.tail).rewound atStart.stands
  by_cases isBrace : char = .openBrace
  · have body : ∀ strict, readBody strict start char = Braced.read := by
      intro strict
      rw [readBody, if_neg isQuote, if_pos isBrace]
    rw [if_neg isQuote, if_pos isBrace] at skips
    rw [body true, body false, skips, List.drop_length]
    exact (Braced.lockstep atStart.tail _).rewound atStart.stands
  · have body : ∀ strict, readBody strict start char source (start + 1) =
        Bare.read strict source start :=
      fun strict => readBody_of_bare strict atStart isQuote isBrace
    rw [if_neg isQuote, if_neg isBrace] at skips
    have bare := Bare.lockstep atStart
    rw [← body true, ← body false] at bare
    rw [skips, List.drop_left]
    exact bare.rewound atStart.stands

/-- Both readers of words are in step. -/
theorem lockstep (shown : source.Shows position rest) :
    ∃ home,
      Lockstep (position + undecoded rest) home (rest.drop (undecoded rest))
        (readValue true source position) (readValue false source position) ∧
      Lockstep (position + undecoded rest) home (rest.drop (undecoded rest))
        (read true source position) (read false source position) := by
  rcases Text.allBlank_or_word rest with blank | ⟨blanks, char, later, same, blank, notBlank⟩
  · refine ⟨position, ?_⟩
    have nothing : ∀ index, ¬ Text.MalformedAt [] index :=
      fun index malformed => absurd malformed.lt_length (Nat.not_lt_zero index)
    rw [undecoded_of_blank blank, List.drop_length, readValue_of_blank true shown blank,
      readValue_of_blank false shown blank, read_of_blank true shown blank,
      read_of_blank false shown blank]
    exact ⟨.together rfl rfl (fun fault failed => by cases failed)
        fun index malformed => absurd malformed (nothing index),
      .together rfl rfl (fun fault failed => by cases failed)
        fun index malformed => absurd malformed (nothing index)⟩
  · subst same
    refine ⟨position + blanks.length, ?_⟩
    have body := lockstep_body shown blank notBlank
    rw [readValue_of_word true shown blank notBlank rfl,
      readValue_of_word false shown blank notBlank rfl,
      read_of_word true shown blank notBlank rfl, read_of_word false shown blank notBlank rfl]
    exact ⟨body.map fun _ => some, body.map fun after value =>
      some (Word.mk (.ofOpening [char]) value (position + blanks.length) after)⟩

/-- A word in braces is read in the same way, strictly or not. -/
theorem read_of_brace (shown : source.Shows position (blanks ++ .openBrace :: later))
    (blank : AllBlank blanks) :
    readValue true source position = readValue false source position ∧
      read true source position = read false source position := by
  have body : ∀ strict start, readBody strict start .openBrace = Braced.read := by
    intro strict start
    rw [readBody, if_neg (by decide), if_pos rfl]
  rw [readValue_of_word true shown blank (by decide) rfl,
    readValue_of_word false shown blank (by decide) rfl,
    read_of_word true shown blank (by decide) rfl, read_of_word false shown blank (by decide) rfl,
    body true, body false]
  exact ⟨rfl, rfl⟩

theorem silent_of_strict (shown : source.Shows position rest) :
    (read true source position).warnings = [] := by
  obtain ⟨_, _, words⟩ := lockstep shown
  exact words.onlyRejects.silent

/-- A braced word never warns, whether it is closed or not. -/
theorem silent_of_brace (shown : source.Shows position (blanks ++ .openBrace :: later))
    (blank : AllBlank blanks) : (read strict source position).warnings = [] := by
  cases strict with
  | true => exact silent_of_strict shown
  | false =>
      rw [← (read_of_brace shown blank).2]
      exact silent_of_strict shown

end Word

end Words

/-! ### Whole texts -/

/-- A strict scan never warns, also if it meets a fault. -/
theorem scan_silent_of_strict {source : Source} {position : Nat}
    (stands : source.Stands position) : (scan true source position).warnings = [] := by
  -- On the characters left, as every word takes one.
  induction remaining : source.size - position using Nat.strongRecOn generalizing position with
  | ind count inductionHypothesis =>
      obtain ⟨rest, shown⟩ := stands
      have silent := Word.silent_of_strict shown
      rcases run : Word.read true source position with ⟨fault | word?, after, warnings⟩
      · rw [run] at silent
        rw [scan_of_error run]
        exact silent
      rw [run] at silent
      cases word? with
      | none =>
          rw [scan_of_none run]
          exact silent
      | some word =>
          have standsAfter := (Word.read_stops shown.stands run).2
          have bounds := Word.consuming_read true source position word after warnings run
          have later := inductionHypothesis (source.size - after) (by omega) standsAfter rfl
          rw [scan_of_some run]
          simp only [later, List.append_nil]
          exact silent

/-- A strict scan that meets no fault is the lenient scan. -/
theorem scan_of_strict {source : Source} {position : Nat} (stands : source.Stands position)
    (accepted : (scan true source position).fault? = none) :
    scan false source position = scan true source position := by
  -- On the characters left, as every word takes one.
  induction remaining : source.size - position using Nat.strongRecOn generalizing position with
  | ind count inductionHypothesis =>
      rcases stands with ⟨rest, shown⟩
      rcases Word.lockstep shown with ⟨_, _, lockstep⟩
      have only := lockstep.onlyRejects
      rcases run : Word.read true source position with ⟨fault | word?, after, warnings⟩
      · rw [scan_of_error run] at accepted
        cases accepted
      rw [run] at only
      have lenient := only.agrees fun fault failed => by cases failed
      rcases word? with _ | word
      · rw [scan_of_none run, scan_of_none lenient]
      · have standsAfter := (Word.read_stops shown.stands run).2
        have bounds := Word.consuming_read true source position word after warnings run
        rw [scan_of_some run] at accepted
        have same := inductionHypothesis (source.size - after) (by omega) standsAfter accepted rfl
        rw [scan_of_some run, scan_of_some lenient, same]

/-- What a text is split into strictly it is split into leniently, with no warning. -/
theorem split_of_strict {text : Text} {words : List Text}
    (accepted : (split true text).result = .ok words) :
    split false text = split true text ∧ (split true text).warnings = [] := by
  have stands : (Source.indexed text).Stands 0 := (Source.shows_indexed (Nat.zero_le _)).stands
  have same := scan_of_strict stands (scan_of_split accepted).1
  rw [warnings_split, split, split, readValues_apply, readValues_apply, same]
  exact ⟨rfl, scan_silent_of_strict stands⟩

/-- **Strictness only ever refuses.** From the same state, the strict run of each reader that
decodes backslash sequences gives no warning, and is the lenient run unless that gets past a
malformed sequence. Then it fails there and names the position behind the first such
backslash. A word in braces is read alike, and a text that is split strictly is split into the
same words leniently, with no warning. -/
theorem strictness_only_rejects {source : Source} {position : Nat} {rest : Text}
    (shown : source.Shows position rest) :
    OnlyRejects position rest (Quoted.read true source position)
      (Quoted.read false source position) ∧
    OnlyRejects position rest (Bare.read true source position)
      (Bare.read false source position) ∧
    OnlyRejects (position + Word.undecoded rest) (rest.drop (Word.undecoded rest))
      (Word.readValue true source position) (Word.readValue false source position) ∧
    OnlyRejects (position + Word.undecoded rest) (rest.drop (Word.undecoded rest))
      (Word.read true source position) (Word.read false source position) ∧
    (∀ blanks later, rest = blanks ++ .openBrace :: later → AllBlank blanks →
      Word.readValue true source position = Word.readValue false source position ∧
        Word.read true source position = Word.read false source position) ∧
    ∀ text words, (split true text).result = .ok words →
      split false text = split true text ∧ (split true text).warnings = [] := by
  rcases Word.lockstep shown with ⟨_, valueLockstep, wordLockstep⟩
  refine ⟨(Quoted.lockstep shown).onlyRejects, (Bare.lockstep shown).onlyRejects,
    valueLockstep.onlyRejects, wordLockstep.onlyRejects, ?_, ?_⟩
  · intro blanks later same blank
    subst same
    exact Word.read_of_brace shown blank
  · exact fun text words accepted => split_of_strict accepted

/-- A quoted word with a sequence without a meaning and a backslash at the end of the input:
leniently it is unterminated, with a warning, and strictly the first of the two is refused. -/
theorem strictness_only_rejects_first_of_two :
    let text := Text.ofString " \"\\n\\q\\"
    (Source.indexed text).Shows 0 text ∧ Word.undecoded text = 2 ∧
      Text.MalformedAt (text.drop 2) 2 ∧ Text.MalformedAt (text.drop 2) 4 ∧
      Word.read false (.indexed text) 0 =
        ⟨.error (.unterminatedQuote 2), 1, [.keptBackslash 7]⟩ ∧
      (Word.read true (.indexed text) 0).result =
        .error (.unknownEscape (.ofChar 'q') 5) := by
  intro text
  have shown : (Source.indexed text).Shows 0 text := Source.shows_indexed (Nat.zero_le _)
  have skipped : Word.undecoded text = 2 := by decide +kernel
  have malformed : Text.MalformedAt (text.drop 2) 2 := by decide +kernel
  have malformedLater : Text.MalformedAt (text.drop 2) 4 := by decide +kernel
  have noneBefore : ∀ earlier < 2, ¬ Text.MalformedAt (text.drop 2) earlier := by decide +kernel
  have results : (Word.read false (.indexed text) 0).result = .error (.unterminatedQuote 2) := by
    decide +kernel
  have positions : (Word.read false (.indexed text) 0).position = 1 := by decide +kernel
  have warnings : (Word.read false (.indexed text) 0).warnings = [.keptBackslash 7] := by
    decide +kernel
  obtain ⟨_, _, _, only, _, _⟩ := strictness_only_rejects shown
  rw [skipped] at only
  have passed : (Word.read false (.indexed text) 0).Passed (0 + 2 + 2) := by
    rw [Run.Passed, results]
    intro value failed
    cases failed
  exact ⟨shown, skipped, malformed, malformedLater, Run.ext results positions warnings,
    only.names_first 2 malformed passed noneBefore⟩

end TclWords
