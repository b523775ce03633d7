import TclWords.Session

/-!
Streams of bytes are refused.

Owns: how each reader finds out that a stream holds bytes, and where it leaves the stream; and
what a session of readers comes to on such a stream.

No reader gets a character out of a stream of bytes, so each fails at the first thing it does. A
reader that looks ahead first leaves the stream where it was. One that reads first has passed a
byte by then, and nothing gives it back: going back over a fault begins behind the first
character. So whoever wants to use the stream otherwise has to remember where it stood.
-/

namespace TclWords

open TclWords.Reader

/-- Where a stream of bytes stands behind so many of the bytes at a position, or behind all that
are left. -/
def behindBytes (bytes : List UInt8) (position count : Nat) : Nat :=
  max position (min bytes.length (position + count))

section Positions

variable (bytes : List UInt8) (position : Nat)

theorem behindBytes_zero : behindBytes bytes position 0 = position := by
  unfold behindBytes
  omega

theorem behindBytes_one :
    behindBytes bytes position 1 = if position < bytes.length then position + 1 else position := by
  unfold behindBytes
  split <;> omega

theorem behindBytes_add (first second : Nat) :
    behindBytes bytes (behindBytes bytes position first) second =
      behindBytes bytes position (first + second) := by
  unfold behindBytes
  omega

end Positions

/-- How a reader finds out that a stream holds bytes. -/
inductive Discovery where
  /-- It looks ahead first. -/
  | ahead
  /-- It reads first. -/
  | reading
deriving DecidableEq

/-- How many bytes are passed until then. -/
def Discovery.cost : Discovery → Nat
  | .ahead => 0
  | .reading => 1

/-- How a call finds out, if it reads characters at all. -/
def Call.discovery? : Call → Option Discovery
  | .quoted _ | .braced | .escape _ | .one => some .reading
  | .moveTo _ number => if 0 < number then some .ahead else none
  | .seek _ | .between _ _ => none
  | _ => some .ahead

/-- How a step finds out, if it reads characters at all. -/
def Step.discovery? : Step → Option Discovery
  | .call made => made.discovery?
  | .nextWord _ | .allWords _ => some .ahead
  | _ => none

/-- How many bytes the steps pass, one after the other. -/
def Step.costs (steps : List Step) : Nat :=
  steps.countP fun step => step.discovery? = some .reading

/-! ### Readers -/

section Readers

variable {α β σ : Type} {discovery : Discovery}

namespace Reader

/-- The reader fails on every stream of bytes, having passed as many as its way to find out
costs. -/
def Refuses (discovery : Discovery) (reader : Reader α) : Prop :=
  ∀ bytes position, reader (.binary bytes) position =
    ⟨.error .binarySource, behindBytes bytes position discovery.cost, []⟩

theorem refuses_peek (count : Int) : Refuses .ahead (peek count) := by
  intro bytes position
  rw [Discovery.cost, behindBytes_zero]
  rfl

theorem refuses_readOne : Refuses .reading readOne := by
  intro bytes position
  rw [Discovery.cost, behindBytes_one]
  rfl

theorem Refuses.bind {first : Reader α} (refuses : Refuses discovery first)
    (next : α → Reader β) : Refuses discovery (first >>= next) :=
  fun bytes position => bind_of_error (refuses bytes position)

theorem Refuses.map {reader : Reader α} (refuses : Refuses discovery reader) (change : α → β) :
    Refuses discovery (change <$> reader) := by
  rw [map_eq_pure_bind]
  exact refuses.bind _

theorem refuses_position_bind {next : Nat → Reader α}
    (refuses : ∀ start, Refuses discovery (next start)) :
    Refuses discovery (position >>= next) :=
  fun bytes start => refuses start bytes start

theorem Refuses.collect {step : σ → Reader (Option (α × σ))} {state : σ}
    (refuses : Refuses discovery (step state)) (consuming : ∀ state, Consuming (step state)) :
    Refuses discovery (collect step consuming state) :=
  fun bytes position => collect_of_error (refuses bytes position)

theorem Refuses.repeatedly {step : Reader (Option α)} (refuses : Refuses discovery step)
    (consuming : Consuming step) : Refuses discovery (repeatedly step consuming) :=
  (refuses.bind _).collect _

theorem refuses_span (accepts : CodePoint → Bool) (limit : Option Nat) :
    Refuses .ahead (span accepts limit) :=
  (((refuses_peek 1).bind _).bind _).collect _

end Reader

theorem Escape.refuses_read (strict : Bool) : Refuses .reading (Escape.read strict) :=
  refuses_position_bind fun _ => refuses_readOne.bind _

theorem Quoted.refuses_read (strict : Bool) : Refuses .reading (Quoted.read strict) :=
  refuses_position_bind fun _ => (refuses_readOne.bind _).repeatedly _

theorem Braced.refuses_read : Refuses .reading Braced.read :=
  refuses_position_bind fun _ => ((refuses_readOne.bind _).collect _).bind _

theorem Bare.refuses_read (strict : Bool) : Refuses .ahead (Bare.read strict) :=
  refuses_position_bind fun _ => (((refuses_peek 1).bind _).bind _).repeatedly _

namespace Word

theorem refuses_readValue (strict : Bool) : Refuses .ahead (readValue strict) :=
  (refuses_span _ _).bind _

theorem refuses_read (strict : Bool) : Refuses .ahead (read strict) :=
  (refuses_span _ _).bind _

theorem refuses_readPast (strict : Bool) : Refuses .ahead (readPast strict) :=
  (refuses_peek 1).bind _

theorem refuses_moveTo (strict : Bool) {number : Int} (positive : 0 < number) :
    Refuses .ahead (moveTo strict number) := by
  obtain ⟨count, same⟩ : ∃ count, number.toNat = count + 1 := ⟨number.toNat - 1, by omega⟩
  rw [moveTo, same]
  exact (refuses_readPast strict).bind _

end Word

/-- Every call that reads characters refuses a stream of bytes. -/
theorem Call.refuses_reader {call : Call} (reads : call.discovery? = some discovery) :
    Refuses discovery call.reader := by
  cases call with
  | quoted strict =>
      cases reads
      exact (Quoted.refuses_read strict).map _
  | braced =>
      cases reads
      exact Braced.refuses_read.map _
  | escape strict =>
      cases reads
      exact (Escape.refuses_read strict).map _
  | one =>
      cases reads
      exact refuses_readOne.map _
  | bare strict =>
      cases reads
      exact (Bare.refuses_read strict).map _
  | wordValue strict =>
      cases reads
      exact (Word.refuses_readValue strict).map _
  | pastWord strict =>
      cases reads
      exact (Word.refuses_readPast strict).map _
  | moveTo strict number =>
      rw [discovery?] at reads
      split at reads
      · next positive =>
          cases reads
          exact (Word.refuses_moveTo strict positive).map _
      · cases reads
  | hexadecimal | unicode | octal first =>
      cases reads
      exact ((refuses_span _ _).bind _).map _
  | span accepted limit | blanks | spacesAndTabs =>
      cases reads
      exact (refuses_span _ _).map _
  | peek count =>
      cases reads
      exact (refuses_peek count).map _
  | seek target | between start stop => cases reads

end Readers

/-! ### Sessions -/

section Sessions

variable {session : Session} {bytes : List UInt8} {step : Step} {discovery : Discovery}

theorem Step.costs_cons (reads : step.discovery? = some discovery) (steps : List Step) :
    costs (step :: steps) = discovery.cost + costs steps := by
  unfold costs
  rw [List.countP_cons, reads, Nat.add_comm]
  cases discovery <;> rfl

namespace Session

/-- A step fails, and moves on by what it passes. -/
theorem step?_of_bytes (onBytes : session.source = .binary bytes)
    (reads : step.discovery? = some discovery) :
    let after := behindBytes bytes session.position discovery.cost
    session.step? step =
      some (⟨.error .binarySource, after, []⟩, { session with position := after }) := by
  intro after
  have refused : ∀ {α : Type} {reader : Reader α}, Refuses discovery reader →
      reader session.source session.position = ⟨.error .binarySource, after, []⟩ := by
    intro α reader refuses
    rw [onBytes]
    exact refuses bytes session.position
  cases step with
  | call made => simp only [step?, perform, refused (Call.refuses_reader reads)]
  | nextWord strict =>
      cases reads
      simp only [step?, refused (Word.refuses_read strict), remember]
      rfl
  | allWords strict =>
      cases reads
      simp only [step?, scan_of_error (refused (Word.refuses_read strict)), Scan.run,
        List.append_nil]
      rfl
  | mark name | goTo name | iterate strict | next number | wordSource index | accept =>
      cases reads

theorem run?_single_of_bytes (bytes : List UInt8) (position : Nat)
    (reads : step.discovery? = some discovery) :
    (start (.binary bytes) position).run? [step] =
      some [⟨.error .binarySource, behindBytes bytes position discovery.cost, []⟩] := by
  have made := @step?_of_bytes (start (.binary bytes) position) bytes step discovery rfl reads
  rw [run?_cons, made]
  rfl

/-- Every step of a session fails, and has moved on by what the steps so far have passed. -/
theorem run?_of_bytes (onBytes : session.source = .binary bytes) (steps : List Step)
    (reads : ∀ step ∈ steps, step.discovery?.isSome) :
    ∃ runs, session.run? steps = some runs ∧ runs.length = steps.length ∧
      ∀ (index : Nat) (inRuns : index < runs.length), runs[index] =
        ⟨.error .binarySource,
          behindBytes bytes session.position (Step.costs (steps.take (index + 1))), []⟩ := by
  induction steps generalizing session with
  | nil => exact ⟨[], rfl, rfl, fun index inRuns => absurd inRuns (Nat.not_lt_zero index)⟩
  | cons step steps inductionHypothesis =>
      obtain ⟨discovery, finds⟩ := Option.isSome_iff_exists.mp (reads step List.mem_cons_self)
      have made := step?_of_bytes onBytes finds
      let after := behindBytes bytes session.position discovery.cost
      obtain ⟨runs, laterRuns, sameLength, refused⟩ :=
        @inductionHypothesis { session with position := after } onBytes
          fun other member => reads other (List.mem_cons_of_mem step member)
      refine ⟨⟨.error .binarySource, after, []⟩ :: runs, ?_, ?_, ?_⟩
      · rw [run?_cons, made]
        show (Session.run? { session with position := after } steps).map _ = _
        rw [laterRuns]
        rfl
      · rw [List.length_cons, List.length_cons, sameLength]
      · intro index inRuns
        cases index with
        | zero =>
            rw [List.take_succ_cons, List.take_zero, Step.costs_cons finds]
            rfl
        | succ index =>
            rw [List.getElem_cons_succ, refused, List.take_succ_cons, Step.costs_cons finds]
            show (⟨_, behindBytes bytes after _, []⟩ : Run Reply) = _
            rw [behindBytes_add]

end Session

end Sessions

/-- **Streams of bytes are refused, but not always left alone.** Each reader of words, blanks or
sequences fails on a stream of bytes, at every position, and without a warning. Those that look
ahead first leave the stream where it was. The contents of quotes and of braces and the backslash
sequences are read at once, and leave it behind one byte, unless it stands at its end. In a
session of readers every step fails, and the stream is left behind as many bytes as there were
steps of the second kind. -/
theorem bytes_are_refused (bytes : List UInt8) (position : Nat) :
    (∀ strict, ∀ step ∈ [Step.call .blanks, .call (.bare strict), .call (.wordValue strict),
      .call (.pastWord strict), .nextWord strict],
        (Session.start (.binary bytes) position).run? [step] =
          some [⟨.error .binarySource, position, []⟩]) ∧
    (∀ strict, ∀ step ∈ [Step.call (.quoted strict), .call .braced, .call (.escape strict)],
        (Session.start (.binary bytes) position).run? [step] =
          some [⟨.error .binarySource,
            if position < bytes.length then position + 1 else position, []⟩]) ∧
    ∀ steps : List Step, (∀ step ∈ steps, step.discovery?.isSome) →
      ∃ runs, (Session.start (.binary bytes) position).run? steps = some runs ∧
        runs.length = steps.length ∧
          ∀ (index : Nat) (inRuns : index < runs.length), runs[index] =
            ⟨.error .binarySource,
              behindBytes bytes position (Step.costs (steps.take (index + 1))), []⟩ := by
  refine ⟨?_, ?_, fun steps reads => Session.run?_of_bytes rfl steps reads⟩
  · intro strict step member
    have finds : step.discovery? = some .ahead := by
      revert step
      simp [Step.discovery?, Call.discovery?]
    rw [Session.run?_single_of_bytes bytes position finds, Discovery.cost,
      behindBytes_zero]
  · intro strict step member
    have finds : step.discovery? = some .reading := by
      revert step
      simp [Step.discovery?, Call.discovery?]
    rw [Session.run?_single_of_bytes bytes position finds, Discovery.cost,
      behindBytes_one]

/-- A byte of a quoted word is passed for good. -/
theorem bytes_are_not_given_back :
    ¬ ∀ (bytes : List UInt8) (position : Nat) (strict : Bool),
      ∀ step ∈ [Step.call (.quoted strict), .call .braced, .call (.bare strict),
        .call (.escape strict), .call .blanks, .call (.wordValue strict),
        .call (.pastWord strict), .nextWord strict],
          (Session.start (.binary bytes) position).run? [step] =
            some [⟨.error .binarySource, position, []⟩] := by
  intro givenBack
  have kept := givenBack [0x61, 0x22] 0 false (.call (.quoted false)) List.mem_cons_self
  have positions := congrArg (Option.map (List.map Run.position)) kept
  have passed : ((Session.start (.binary [0x61, 0x22]) 0).run?
      [.call (.quoted false)]).map (List.map Run.position) = some [1] := by decide +kernel
  rw [passed] at positions
  cases positions

/-- Five readers in a row are refused. Those that read first take the stream to its end, and no
further. -/
theorem bytes_are_refused_up_to_end :
    let steps : List Step :=
      [.nextWord true, .call .braced, .call (.peek 3), .call (.escape false), .call (.quoted true)]
    (∀ step ∈ steps, step.discovery?.isSome) ∧
      ((Session.start (.binary [0x61, 0x22]) 0).run? steps).map (List.map Run.position) =
        some [0, 1, 1, 2, 2] ∧
      ∃ runs, (Session.start (.binary [0x61, 0x22]) 0).run? steps = some runs ∧
        runs.length = 5 ∧
          ∀ (index : Nat) (inRuns : index < runs.length), runs[index] =
            ⟨.error .binarySource,
              behindBytes [0x61, 0x22] 0 (Step.costs (steps.take (index + 1))), []⟩ := by
  intro steps
  have reads : ∀ step ∈ steps, step.discovery?.isSome := by decide
  have positions : ((Session.start (.binary [0x61, 0x22]) 0).run? steps).map
      (List.map Run.position) = some [0, 1, 1, 2, 2] := by decide +kernel
  exact ⟨reads, positions, (bytes_are_refused [0x61, 0x22] 0).2.2 steps reads⟩

end TclWords
