import TclWords.Reader.Ahead
import TclWords.Word
import TclWords.Word.Bare
import TclWords.Word.Braced
import TclWords.Word.Quoted

/-!
Reading one word.

The first character behind the blanks decides how a word is read. If the word is at
fault, the position goes back to that character. `consuming_readValue` and
`consuming_read` say that every word takes at least one character.
-/

namespace TclWords

namespace Bare

open TclWords.Reader

/-- A bare word that begins with a character takes it. -/
theorem read_consumes {strict : Bool} {source : Source} {position next after : Nat}
    {char : CodePoint} {text : Text} {earlier warnings : List Warning}
    (available : readOne source position = ⟨.ok (some char), next, earlier⟩)
    (notBlank : char.isBlank = false)
    (run : read strict source position = ⟨.ok text, after, warnings⟩) :
    position < after ∧ after ≤ source.size := by
  obtain ⟨start, _, _, _, started, run⟩ := bind_eq_ok run
  obtain ⟨rfl, rfl⟩ := position_eq_ok started
  rw [repeatedly_eq] at run
  obtain ⟨item?, between, _, _, stepRun, restRun⟩ := bind_eq_ok run
  cases item? with
  | none =>
      obtain ⟨next?, between, _, _, peekRun, stepRun⟩ := bind_eq_ok stepRun
      rw [peekOne_eq_ok peekRun, peekOne_eq_of_readOne available peekRun] at stepRun
      simp only [notBlank, Bool.false_eq_true, if_false] at stepRun
      rw [bind_of_ok available] at stepRun
      simp only at stepRun
      split at stepRun
      · have results := congrArg Run.result stepRun
        rw [map_eq_pure_bind] at results
        simp only [Run.precededBy_result, bind_apply] at results
        split at results <;> cases results
      · cases congrArg Run.result stepRun
  | some item =>
      have taken := consuming_step strict position source position item between _ stepRun
      obtain ⟨rest, last, _, _, restRun, pureRun⟩ := bind_eq_ok restRun
      have restBounds := forward_repeatedly (consuming_step strict position)
        (forward_step strict position) source between rest last _ restRun
      cases pureRun
      omega

end Bare

namespace Word

open TclWords.Reader

/-- The rest of a word that begins with `char` at `start`. -/
def readBody (strict : Bool) (start : Nat) (char : CodePoint) : Reader Text :=
  if char = .doubleQuote then Quoted.read strict
  else if char = .openBrace then Braced.read
  else do
    seek start
    Bare.read strict

/-- The value of the next word, or nothing if only blanks are left. -/
def readValue (strict : Bool) : Reader (Option Text) := do
  let _ ← blankSpan
  let start ← position
  match ← readOne with
  | none => return none
  | some char => some <$> rewindingTo start (readBody strict start char)

/-- The next word, or nothing if only blanks are left. -/
def read (strict : Bool) : Reader (Option Word) := do
  let _ ← blankSpan
  let start ← position
  let opening ← peek 1
  match ← readValue strict with
  | none => return none
  | some value => return some ⟨.ofOpening opening, value, start, ← position⟩

/-- A word whose first character can be read, and is no blank, takes it. -/
theorem readBody_consumes {strict : Bool} {source : Source} {start next after : Nat}
    {char : CodePoint} {text : Text} {earlier warnings : List Warning}
    (available : readOne source start = ⟨.ok (some char), next, earlier⟩)
    (notBlank : char.isBlank = false)
    (run : readBody strict start char source next = ⟨.ok text, after, warnings⟩) :
    start < after ∧ after ≤ source.size := by
  have passed := readOne_eq_some available
  unfold readBody at run
  split at run
  · have bounds := Quoted.forward_read strict source next text after warnings run
    omega
  split at run
  · have bounds := Braced.forward_read source next text after warnings run
    omega
  · obtain ⟨_, back, _, _, sought, bodyRun⟩ := bind_eq_ok run
    have target := (seek_eq_ok sought).1
    have same : back = start := by omega
    subst same
    exact Bare.read_consumes available notBlank bodyRun

theorem consuming_readValue (strict : Bool) : Consuming (readValue strict) := by
  intro source position value after warnings run
  obtain ⟨blanks, start, _, _, blankRun, run⟩ := bind_eq_ok run
  have blankBounds := forward_span _ _ source position blanks start _ blankRun
  obtain ⟨_, _, _, _, started, run⟩ := bind_eq_ok run
  obtain ⟨rfl, rfl⟩ := position_eq_ok started
  obtain ⟨char?, next, _, _, oneRun, run⟩ := bind_eq_ok run
  cases char? with
  | none => cases run
  | some char =>
      have notBlank := span_ends blankRun oneRun
      simp only [map_eq_pure_bind] at run
      obtain ⟨text, last, _, _, bodyRun, pureRun⟩ := bind_eq_ok run
      have bounds := readBody_consumes oneRun notBlank (rewindingTo_eq_ok_iff.mp bodyRun)
      cases pureRun
      omega

theorem consuming_read (strict : Bool) : Consuming (read strict) := by
  intro source position word after warnings run
  obtain ⟨blanks, start, _, _, blankRun, run⟩ := bind_eq_ok run
  have blankBounds := forward_span _ _ source position blanks start _ blankRun
  obtain ⟨_, _, _, _, started, run⟩ := bind_eq_ok run
  obtain ⟨rfl, rfl⟩ := position_eq_ok started
  obtain ⟨opening, between, _, _, peekRun, run⟩ := bind_eq_ok run
  have unmoved := peek_eq_ok peekRun
  obtain ⟨value?, last, _, _, valueRun, run⟩ := bind_eq_ok run
  cases value? with
  | none => cases run
  | some value =>
      have bounds := consuming_readValue strict source between value last _ valueRun
      obtain ⟨_, _, _, _, ended, run⟩ := bind_eq_ok run
      have unmovedBehind := (position_eq_ok ended).2
      cases run
      omega

/-- Moves past the blanks at the position, or else past the word there and the blanks
behind it. Gives the value of the word passed, if any. -/
def readPast (strict : Bool) : Reader (Option Text) := do
  if (← peek 1).isSingleBlank then
    let _ ← blankSpan
    return none
  else
    let value? ← readValue strict
    let _ ← blankSpan
    return value?

/-- Moves past so many words. -/
def readPastMany (strict : Bool) : Nat → Reader Unit
  | 0 => return ()
  | count + 1 => do
    let _ ← readPast strict
    readPastMany strict count

/-- Moves to the word with the given number, counted from the one at the position,
which has the number zero. A number that is not positive does not move. -/
def moveTo (strict : Bool) (number : Int) : Reader Unit :=
  readPastMany strict number.toNat

/-- The next character of a part that ends at `stop`. -/
def sourceStep (stop : Int) : Reader (Option CodePoint) := do
  if (← position : Nat) = stop then return none
  else readOne

theorem consuming_sourceStep (stop : Int) : Consuming (sourceStep stop) := by
  intro source position char after warnings run
  obtain ⟨here, between, _, _, positionRun, run⟩ := bind_eq_ok run
  obtain ⟨rfl, rfl⟩ := position_eq_ok positionRun
  split at run
  · cases run
  · exact consuming_readOne source _ char after _ run

/-- What stands from `start` on until exactly `stop` is reached or the input ends. The
position is left as it was. -/
def sourceBetween (start stop : Int) : Reader Text := do
  let back ← position
  seek start
  let text ← repeatedly (sourceStep stop) (consuming_sourceStep stop)
  seek back
  return text

/-- The word as it is written, delimiters included. -/
def source (word : Word) : Reader Text :=
  sourceBetween word.start word.stop

end Word

end TclWords
