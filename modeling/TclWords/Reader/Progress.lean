import TclWords.Reader.Laws

/-!
How far readers move the position.

A reader is `Forward` if its successes never go back and never leave the source,
and `Consuming` if each of its successes that yields an item passes at least one
character. Repeating a consuming reader comes to an end.
-/

namespace TclWords.Reader

variable {α β : Type}

/-- A success goes forward and stays within the source. -/
def Forward (reader : Reader α) : Prop :=
  ∀ source position value after warnings,
    reader source position = ⟨.ok value, after, warnings⟩ →
      position ≤ after ∧ after ≤ max position source.size

/-- A success that yields an item passes at least one character of the source. -/
def Consuming (reader : Reader (Option α)) : Prop :=
  ∀ source position item after warnings,
    reader source position = ⟨.ok (some item), after, warnings⟩ →
      position < after ∧ after ≤ source.size

theorem forward_pure (value : α) : Forward (pure value : Reader α) := by
  intro source position result after warnings run
  cases run
  omega

theorem Forward.bind {first : Reader α} {next : α → Reader β} (forward : Forward first)
    (forwardNext : ∀ value, Forward (next value)) : Forward (first >>= next) := by
  intro source position result after warnings run
  obtain ⟨value, between, earlier, later, firstRun, nextRun⟩ := bind_eq_ok run
  have firstBounds := forward source position value between earlier firstRun
  have nextBounds := forwardNext value source between result after later nextRun
  omega

theorem Forward.map {reader : Reader α} (forward : Forward reader) (change : α → β) :
    Forward (change <$> reader) := by
  rw [map_eq_pure_bind]
  exact forward.bind fun value => forward_pure (change value)

/-- It is told where the source stands, and telling does not move. -/
theorem position_eq_ok {source : Source} {here told after : Nat} {warnings : List Warning}
    (run : position source here = ⟨.ok told, after, warnings⟩) :
    here = told ∧ here = after := by
  have tells := congrArg Run.result run
  have unmoved := congrArg Run.position run
  exact ⟨(Source.tell?_eq_ok tells).symm, unmoved⟩

theorem forward_position : Forward Reader.position := by
  intro source position result after warnings run
  have same := (position_eq_ok run).2
  omega

theorem forward_warn (warning : Warning) : Forward (warn warning) := by
  intro source position result after warnings run
  cases run
  omega

theorem forward_fail (fault : Fault) : Forward (fail fault : Reader α) := by
  intro source position result after warnings run
  cases run

/-- Going back and failing never succeeds. -/
theorem failAt_ne_ok {start : Nat} {fault : Fault} {source : Source}
    {position after : Nat} {value : α} {warnings : List Warning} :
    (failAt start fault : Reader α) source position ≠ ⟨.ok value, after, warnings⟩ := by
  intro run
  obtain ⟨_, between, earlier, later, _, failed⟩ := bind_eq_ok run
  cases failed

theorem forward_failAt (start : Nat) (fault : Fault) :
    Forward (failAt start fault : Reader α) := by
  intro source position result after warnings run
  exact absurd run failAt_ne_ok

/-- What can be rewound succeeds as before. -/
theorem rewindingTo_eq_ok_iff {start : Nat} {reader : Reader α} {source : Source}
    {position after : Nat} {value : α} {warnings : List Warning} :
    rewindingTo start reader source position = ⟨.ok value, after, warnings⟩ ↔
      reader source position = ⟨.ok value, after, warnings⟩ := by
  unfold rewindingTo
  cases readerRun : reader source position with
  | mk result between earlier =>
      cases result with
      | ok value => rfl
      | error fault =>
          simp only
          split
          · constructor
            · intro run
              have results := congrArg Run.result run
              have positions := congrArg Run.position run
              have failed : (failAt start fault : Reader α) source between =
                  ⟨.ok value, after, (failAt start fault source between : Run α).warnings⟩ :=
                Run.ext results positions rfl
              exact absurd failed failAt_ne_ok
            · intro run
              cases run
          · constructor <;> intro run <;> cases run

theorem Forward.rewindingTo {reader : Reader α} (forward : Forward reader) (start : Nat) :
    Forward (rewindingTo start reader) := by
  intro source position result after warnings run
  exact forward source position result after warnings (rewindingTo_eq_ok_iff.mp run)

/-- Reading one character passes exactly that one. -/
theorem readOne_eq_some {source : Source} {position after : Nat} {char : CodePoint}
    {warnings : List Warning}
    (run : readOne source position = ⟨.ok (some char), after, warnings⟩) :
    after = position + 1 ∧ position < source.size ∧ warnings = [] := by
  cases source with
  | indexed text | stepping text | stream text =>
      simp only [readOne] at run
      split at run
      · next found =>
          cases run
          exact ⟨rfl, (List.getElem?_eq_some_iff.mp found).1, rfl⟩
      · cases run
  | binary bytes => cases run
  | file handle =>
      simp only [readOne] at run
      split at run
      · cases run
      · split at run
        · next found =>
            cases run
            exact ⟨rfl, (List.getElem?_eq_some_iff.mp found).1, rfl⟩
        · split at run <;> cases run

/-- The end of the input is not passed. -/
theorem readOne_eq_none {source : Source} {position after : Nat} {warnings : List Warning}
    (run : readOne source position = ⟨.ok none, after, warnings⟩) :
    after = position ∧ warnings = [] := by
  cases source with
  | indexed text | stepping text | stream text =>
      simp only [readOne] at run
      split at run
      · cases run
      · cases run
        exact ⟨rfl, rfl⟩
  | binary bytes => cases run
  | file handle =>
      simp only [readOne] at run
      split at run
      · cases run
      · split at run
        · cases run
        · split at run
          · cases run
          · cases run
            exact ⟨rfl, rfl⟩

theorem consuming_readOne : Consuming readOne := by
  intro source position char after warnings run
  have bounds := readOne_eq_some run
  omega

theorem forward_readOne : Forward readOne := by
  intro source position char? after warnings run
  cases char? with
  | none =>
      have same := readOne_eq_none run
      omega
  | some char =>
      have bounds := readOne_eq_some run
      omega

/-- Sought positions are the ones asked for. -/
theorem seek_eq_ok {target : Int} {source : Source} {position after : Nat}
    {warnings : List Warning}
    (run : seek target source position = ⟨.ok (), after, warnings⟩) :
    (after : Int) = target ∧ warnings = [] := by
  simp only [seek] at run
  split at run
  · next sought =>
      cases run
      exact ⟨Source.seek?_eq_ok sought, rfl⟩
  · cases run

/-- Looking ahead does not move. -/
theorem peek_eq_ok {count : Int} {source : Source} {position after : Nat} {text : Text}
    {warnings : List Warning}
    (run : peek count source position = ⟨.ok text, after, warnings⟩) :
    after = position := by
  cases source with
  | indexed contents | stream contents =>
      cases run
      rfl
  | stepping contents =>
      obtain ⟨start, between, _, _, started, run⟩ := bind_eq_ok run
      obtain ⟨rfl, rfl⟩ := position_eq_ok started
      obtain ⟨ahead, beyond, _, _, _, run⟩ := bind_eq_ok run
      obtain ⟨_, back, _, _, sought, run⟩ := bind_eq_ok run
      have target := (seek_eq_ok sought).1
      cases run
      omega
  | binary bytes => cases run
  | file handle =>
      simp only [peek] at run
      split at run
      · cases run
      · split at run
        · cases run
        · cases run
          rfl

theorem forward_peek (count : Int) : Forward (peek count) := by
  intro source position text after warnings run
  have same := peek_eq_ok run
  omega

theorem peekOne_eq_ok {source : Source} {position after : Nat} {char? : Option CodePoint}
    {warnings : List Warning}
    (run : peekOne source position = ⟨.ok char?, after, warnings⟩) : after = position := by
  obtain ⟨text, between, _, _, textRun, headRun⟩ := bind_eq_ok run
  cases headRun
  exact peek_eq_ok textRun

theorem forward_peekOne : Forward peekOne :=
  (forward_peek 1).bind fun text => forward_pure text.head?

/-- A character read, and whatever follows, is a consuming reader if nothing but
a character read leads to an item. -/
theorem Consuming.readOne_bind {next : Option CodePoint → Reader (Option α)}
    (atEnd : ∀ source position item after warnings,
      next none source position ≠ ⟨.ok (some item), after, warnings⟩)
    (forward : ∀ char, Forward (next (some char))) : Consuming (readOne >>= next) := by
  intro source position item after warnings run
  obtain ⟨char?, between, earlier, later, oneRun, nextRun⟩ := bind_eq_ok run
  cases char? with
  | none => exact absurd nextRun (atEnd source between item after later)
  | some char =>
      have oneBounds := readOne_eq_some oneRun
      have nextBounds := forward char source between (some item) after later nextRun
      omega

/-- Looking ahead first does not change what is consumed. -/
theorem Consuming.peekOne_bind {next : Option CodePoint → Reader (Option α)}
    (consuming : ∀ char?, Consuming (next char?)) : Consuming (peekOne >>= next) := by
  intro source position item after warnings run
  obtain ⟨char?, between, earlier, later, peekRun, nextRun⟩ := bind_eq_ok run
  have same := peekOne_eq_ok peekRun
  have bounds := consuming char? source between item after later nextRun
  omega

/-- Yielding nothing consumes nothing. -/
theorem consuming_none : Consuming (pure none : Reader (Option α)) := by
  intro source position item after warnings run
  cases run

end TclWords.Reader
