import TclWords.Candidate
import TclWords.Iteration

/-!
Sessions: calls made one after the other on one source.

A call either reads the source from the position on, or also uses what the session
remembers: marked positions, the words read so far, and the iterators made. A fault
ends the call but not the session.
-/

namespace TclWords

/-- What a call gives. -/
inductive Reply where
  | nothing
  | text (text : Text)
  | word (word : Word)
  | words (words : List Word)
  | exhausted
  | cursor (kind : CursorKind) (kept : Bool)
deriving DecidableEq

namespace Reply

def ofText? : Option Text → Reply
  | none => .nothing
  | some contents => .text contents

def ofCodePoint? (char? : Option CodePoint) : Reply :=
  ofText? (char?.map fun char => [char])

def ofWord? : Option Word → Reply
  | none => .nothing
  | some found => .word found

/-- The reply of an iterator. -/
def ofNext? : Option Word → Reply
  | none => .exhausted
  | some found => .word found

end Reply

/-- A call that depends on the source and the position only. -/
inductive Call where
  | wordValue (strict : Bool)
  | pastWord (strict : Bool)
  | quoted (strict : Bool)
  | bare (strict : Bool)
  | braced
  | escape (strict : Bool)
  | moveTo (strict : Bool) (number : Int)
  | hexadecimal
  | unicode
  | octal (first : Text)
  | span (accepted : Text) (limit : Option Int)
  | blanks
  | spacesAndTabs
  | one
  | peek (count : Int)
  | seek (target : Int)
  | between (start stop : Int)
deriving DecidableEq

/-- The reader that a call runs. -/
def Call.reader : Call → Reader Reply
  | .wordValue strict => Reply.ofText? <$> Word.readValue strict
  | .pastWord strict => Reply.ofText? <$> Word.readPast strict
  | .quoted strict => Reply.text <$> Quoted.read strict
  | .bare strict => Reply.text <$> Bare.read strict
  | .braced => Reply.text <$> Braced.read
  | .escape strict => (fun char => .text [char]) <$> Escape.read strict
  | .moveTo strict number => (fun _ => .nothing) <$> Word.moveTo strict number
  | .hexadecimal => Reply.ofCodePoint? <$> Escape.hexadecimal
  | .unicode => Reply.ofCodePoint? <$> Escape.unicode
  | .octal first => (fun char => .text [char]) <$> Escape.octal first
  | .span accepted limit => Reply.text <$> Reader.span accepted.contains (limit.map Int.toNat)
  | .blanks => Reply.text <$> Reader.blankSpan
  | .spacesAndTabs => Reply.text <$> Reader.spaceAndTabSpan
  | .one => Reply.ofCodePoint? <$> Reader.readOne
  | .peek count => Reply.text <$> Reader.peek count
  | .seek target => (fun _ => .nothing) <$> Reader.seek target
  | .between start stop => Reply.text <$> Word.sourceBetween start stop

inductive Step where
  | call (call : Call)
  | mark (name : Text)
  | goTo (name : Text)
  /-- Reads the next word and remembers it. -/
  | nextWord (strict : Bool)
  /-- Reads all words that are left and remembers them. -/
  | allWords (strict : Bool)
  /-- Makes another iterator. -/
  | iterate (strict : Bool)
  /-- Takes the next word from an iterator and remembers it. The iterators are counted
  from the one made last, which has the number zero. -/
  | next (number : Nat)
  /-- The source of a remembered word, counted from the last one if the index is
  negative. -/
  | wordSource (index : Int)
  /-- Offers the source, and then its cursor once more. -/
  | accept
deriving DecidableEq

/-- A source, the position on it, and what is remembered. -/
structure Session where
  source : Source
  position : Nat
  words : List Word
  marks : List (Text × Nat)
  /-- The iterator made last comes first. -/
  iterators : List WordIterator

namespace Session

/-- A session in which nothing has happened yet. -/
def start (source : Source) (position : Nat) : Session :=
  ⟨source, position, [], [], []⟩

/-- A remembered word. -/
def word? (session : Session) (index : Int) : Option Word :=
  if 0 ≤ index then session.words[index.toNat]?
  else if -index ≤ session.words.length then
    session.words[(session.words.length + index).toNat]?
  else none

/-- Runs a reader from the position on. -/
def perform (session : Session) (reader : Reader Reply) : Run Reply × Session :=
  let run := reader session.source session.position
  (run, { session with position := run.position })

/-- Gives a reply without reading. -/
def reply (session : Session) (result : Except Fault Reply) : Run Reply × Session :=
  (⟨result, session.position, []⟩, session)

/-- Remembers the word that a run read, and moves on to where it ended. -/
def remember (session : Session) (run : Run (Option Word)) : Session :=
  match run.result with
  | .ok (some word) =>
    { session with position := run.position, words := session.words ++ [word] }
  | _ => { session with position := run.position }

theorem remember_keeps (session : Session) (run : Run (Option Word)) :
    (session.remember run).source = session.source ∧
      (session.remember run).position = run.position ∧
        (session.remember run).iterators = session.iterators := by
  rcases run with ⟨_ | _ | word, after, warnings⟩ <;> exact ⟨rfl, rfl, rfl⟩

/-- Carries out a step. There is no answer to a step that uses a mark, a word or an
iterator that the session does not hold. -/
def step? (session : Session) : Step → Option (Run Reply × Session)
  | .call call => session.perform call.reader
  | .mark name =>
    match session.source.tell? session.position with
    | .error fault => session.reply (.error fault)
    | .ok place => { session with marks := (name, place) :: session.marks }.reply (.ok .nothing)
  | .goTo name => do
    let position ← session.marks.lookup name
    session.perform ((fun _ => .nothing) <$> Reader.seek position)
  | .nextWord strict =>
    let run := Word.read strict session.source session.position
    some (⟨run.result.map Reply.ofWord?, run.position, run.warnings⟩, session.remember run)
  | .allWords strict =>
    let scanned := scan strict session.source session.position
    let run := scanned.run
    some (⟨run.result.map Reply.words, run.position, run.warnings⟩,
      { session with position := scanned.position, words := session.words ++ scanned.words })
  | .iterate strict =>
    { session with iterators := .start strict :: session.iterators }.reply (.ok .nothing)
  | .next number => do
    let iterator ← session.iterators[number]?
    let (run, iterator) := iterator.next session.source session.position
    return (⟨run.result.map Reply.ofNext?, run.position, run.warnings⟩,
      { session.remember run with iterators := session.iterators.set number iterator })
  | .wordSource index => do
    let word ← session.word? index
    session.perform (Reply.text <$> word.source)
  | .accept =>
    session.reply (session.source.candidate.accept.map fun kind => .cursor kind kind.isKept)

/-- Carries out steps one after the other: the run of each, which tells the position
after it, and the session behind all of them. -/
def carryOut? (session : Session) : List Step → Option (List (Run Reply) × Session)
  | [] => some ([], session)
  | step :: later => do
    let (run, next) ← session.step? step
    let (runs, last) ← next.carryOut? later
    return (run :: runs, last)

/-- The runs of steps that are carried out one after the other. -/
def run? (session : Session) (steps : List Step) : Option (List (Run Reply)) :=
  (session.carryOut? steps).map Prod.fst

/-- The session behind steps that are carried out one after the other. -/
def after? (session : Session) (steps : List Step) : Option Session :=
  (session.carryOut? steps).map Prod.snd

theorem run?_cons (session : Session) (step : Step) (later : List Step) :
    session.run? (step :: later) =
      (session.step? step).bind fun made => (made.2.run? later).map (made.1 :: ·) := by
  unfold run?
  rw [carryOut?]
  rcases session.step? step with _ | ⟨run, next⟩
  · rfl
  · show ((next.carryOut? later).bind fun rest => some (run :: rest.1, rest.2)).map Prod.fst =
      ((next.carryOut? later).map Prod.fst).map (run :: ·)
    cases next.carryOut? later <;> rfl

theorem after?_cons (session : Session) (step : Step) (later : List Step) :
    session.after? (step :: later) =
      (session.step? step).bind fun made => made.2.after? later := by
  unfold after?
  rw [carryOut?]
  rcases session.step? step with _ | ⟨run, next⟩
  · rfl
  · show ((next.carryOut? later).bind fun rest => some (run :: rest.1, rest.2)).map Prod.snd =
      (next.carryOut? later).map Prod.snd
    cases next.carryOut? later <;> rfl

end Session

end TclWords
