import TclWords.Word.Read

/-!
Reading word after word.

`scan` reads all words that are left and keeps those in front of a fault. An iterator
hands them out one at a time: it holds no text of its own, so each word is read from
wherever the source stands by then. After the end or a fault it gives nothing more.
-/

namespace TclWords

/-- The words read up to the end of the input or up to a fault. -/
structure Scan where
  words : List Word
  fault? : Option Fault
  position : Nat
  warnings : List Warning

/-- Reads all words that are left. Every word takes a character, so this ends. -/
def scan (strict : Bool) (source : Source) (position : Nat) : Scan :=
  match _wordRun : Word.read strict source position with
  | ⟨.error fault, after, warnings⟩ => ⟨[], some fault, after, warnings⟩
  | ⟨.ok none, after, warnings⟩ => ⟨[], none, after, warnings⟩
  | ⟨.ok (some word), after, warnings⟩ =>
    let rest := scan strict source after
    ⟨word :: rest.words, rest.fault?, rest.position, warnings ++ rest.warnings⟩
termination_by source.size - position
decreasing_by
  have bounds := Word.consuming_read strict source position word after warnings _wordRun
  omega

section Runs

variable {strict : Bool} {source : Source} {position after : Nat} {warnings : List Warning}

theorem scan_of_error {fault : Fault}
    (run : Word.read strict source position = ⟨.error fault, after, warnings⟩) :
    scan strict source position = ⟨[], some fault, after, warnings⟩ := by
  rw [scan]
  split
  · next wordRun =>
      rw [run] at wordRun
      cases wordRun
      rfl
  · next wordRun =>
      rw [run] at wordRun
      cases wordRun
  · next wordRun =>
      rw [run] at wordRun
      cases wordRun

theorem scan_of_none
    (run : Word.read strict source position = ⟨.ok none, after, warnings⟩) :
    scan strict source position = ⟨[], none, after, warnings⟩ := by
  rw [scan]
  split
  · next wordRun =>
      rw [run] at wordRun
      cases wordRun
  · next wordRun =>
      rw [run] at wordRun
      cases wordRun
      rfl
  · next wordRun =>
      rw [run] at wordRun
      cases wordRun

theorem scan_of_some {word : Word}
    (run : Word.read strict source position = ⟨.ok (some word), after, warnings⟩) :
    scan strict source position =
      ⟨word :: (scan strict source after).words, (scan strict source after).fault?,
        (scan strict source after).position,
        warnings ++ (scan strict source after).warnings⟩ := by
  rw [scan]
  split
  · next wordRun =>
      rw [run] at wordRun
      cases wordRun
  · next wordRun =>
      rw [run] at wordRun
      cases wordRun
  · next wordRun =>
      rw [run] at wordRun
      cases wordRun
      rfl

end Runs

/-- All words of a scan, unless it met a fault. -/
def Scan.run (scanned : Scan) : Run (List Word) :=
  match scanned.fault? with
  | none => ⟨.ok scanned.words, scanned.position, scanned.warnings⟩
  | some fault => ⟨.error fault, scanned.position, scanned.warnings⟩

/-- All words that are left, unless one is at fault. -/
def readAll (strict : Bool) : Reader (List Word) :=
  fun source position => (scan strict source position).run

/-- Reading all words is reading one again and again. -/
theorem readAll_eq_repeatedly (strict : Bool) :
    readAll strict = Reader.repeatedly (Word.read strict) (Word.consuming_read strict) := by
  funext source position
  show (scan strict source position).run = _
  induction remaining : source.size - position using Nat.strongRecOn generalizing position with
  | ind count inductionHypothesis =>
      rcases run : Word.read strict source position with ⟨fault | _ | word, after, warnings⟩
      · rw [scan_of_error run, Reader.repeatedly_eq, Reader.bind_of_error run]
        rfl
      · rw [scan_of_none run, Reader.repeatedly_of_none run]
        rfl
      · have bounds := Word.consuming_read strict source position word after warnings run
        have later := inductionHypothesis (source.size - after) (by omega) after rfl
        rw [scan_of_some run, Reader.repeatedly_of_some run later.symm]
        rcases scan strict source after with ⟨words, _ | fault, last, given⟩ <;> rfl

/-- The values of all words that are left, unless one is at fault. -/
def readValues (strict : Bool) : Reader (List Text) := do
  return (← readAll strict).map Word.value

/-- The values of all words of a text. -/
def split (strict : Bool) (text : Text) : Run (List Text) :=
  readValues strict (.indexed text) 0

/-- Hands out words one at a time while it is live. -/
structure WordIterator where
  strict : Bool
  live : Bool
deriving DecidableEq

namespace WordIterator

/-- An iterator that has handed out nothing yet. -/
def start (strict : Bool) : WordIterator :=
  ⟨strict, true⟩

/-- The next word from the position on, or nothing. Only a word keeps the iterator
live. -/
def next (iterator : WordIterator) (source : Source) (position : Nat) :
    Run (Option Word) × WordIterator :=
  if iterator.live then
    let run := Word.read iterator.strict source position
    match run.result with
    | .ok (some _) => (run, iterator)
    | _ => (run, { iterator with live := false })
  else (⟨.ok none, position, []⟩, iterator)

/-- Asks for a word so many times, whatever the answers are. -/
def take (iterator : WordIterator) (source : Source) (position : Nat) :
    Nat → List (Run (Option Word)) × WordIterator × Nat
  | 0 => ([], iterator, position)
  | count + 1 =>
    let (run, iterator) := iterator.next source position
    let (runs, last) := iterator.take source run.position count
    (run :: runs, last)

end WordIterator

/-- What an iterator gave while its source was open and what it gave afterwards. -/
structure LazyReading where
  inside : List (Run (Option Word))
  after : List (Run (Option Word))
  position : Nat

/-- Takes words from a source one at a time, `inside` of them before a file is closed
and `after` of them later. -/
def lazyRead (strict : Bool) (source : Source) (position inside after : Nat) :
    LazyReading :=
  let (early, iterator, between) := (WordIterator.start strict).take source position inside
  let (late, _, last) := iterator.take source.close between after
  ⟨early, late, last⟩

end TclWords
