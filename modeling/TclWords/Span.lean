import TclWords.Blank
import TclWords.Reader.Ahead

/-!
Runs of characters of one class.

`Reader.span` reads the longest run there is at the position, or its beginning if
the run is limited. The first character that is not taken is only looked at; `span_ends` says
that it is not accepted.
-/

namespace TclWords.Reader

/-- One more character of the run, with the number of those that may follow it. -/
def spanStep (accepts : CodePoint → Bool) (limit : Option Nat) :
    Reader (Option (CodePoint × Option Nat)) := do
  match ← peekOne with
  | none => return none
  | some char =>
    if accepts char && limit != some 0 then
      return (← readOne).map fun char => (char, limit.map (· - 1))
    else return none

theorem consuming_spanStep (accepts : CodePoint → Bool) (limit : Option Nat) :
    Consuming (spanStep accepts limit) := by
  apply Consuming.peekOne_bind
  intro char?
  cases char? with
  | none => exact consuming_none
  | some char =>
      simp only
      split
      · apply Consuming.readOne_bind
        · intro source position item after warnings run
          cases run
        · intro char
          exact forward_pure _
      · exact consuming_none

theorem forward_spanStep (accepts : CodePoint → Bool) (limit : Option Nat) :
    Forward (spanStep accepts limit) := by
  apply forward_peekOne.bind
  intro char?
  cases char? with
  | none => exact forward_pure none
  | some char =>
      simp only
      split
      · exact forward_readOne.bind fun _ => forward_pure _
      · exact forward_pure none

/-- The longest run of accepted characters, of which no more than the limit are
read if there is one. -/
def span (accepts : CodePoint → Bool) (limit : Option Nat) : Reader Text :=
  collect (spanStep accepts) (consuming_spanStep accepts) limit

theorem forward_span (accepts : CodePoint → Bool) (limit : Option Nat) :
    Forward (span accepts limit) :=
  forward_collect _ _ (forward_spanStep accepts) limit

/-- A step that yields nothing stays where it is, and what could be read there is not
accepted. -/
theorem spanStep_eq_none {accepts : CodePoint → Bool} {source : Source}
    {position after : Nat} {warnings : List Warning}
    (run : spanStep accepts none source position = ⟨.ok none, after, warnings⟩) :
    after = position ∧
      ∀ char next earlier, readOne source position = ⟨.ok (some char), next, earlier⟩ →
        accepts char = false := by
  constructor
  · obtain ⟨char?, between, _, _, peekRun, run⟩ := bind_eq_ok run
    have unmoved := peekOne_eq_ok peekRun
    cases char? with
    | none =>
        cases run
        exact unmoved
    | some char =>
        simp only at run
        split at run
        · obtain ⟨one?, last, _, _, oneRun, mapRun⟩ := bind_eq_ok run
          cases one? with
          | none =>
              have ended := (readOne_eq_none oneRun).1
              cases mapRun
              omega
          | some one => cases mapRun
        · cases run
          exact unmoved
  · intro char next earlier available
    obtain ⟨char?, between, _, _, peekRun, run⟩ := bind_eq_ok run
    rw [peekOne_eq_ok peekRun, peekOne_eq_of_readOne available peekRun] at run
    simp only at run
    split at run
    · rw [bind_of_ok available] at run
      cases congrArg Run.result run
    · next refused => simpa using refused

/-- What follows an unlimited run is not accepted. -/
theorem span_ends {accepts : CodePoint → Bool} {source : Source}
    {position after next : Nat} {text : Text} {char : CodePoint}
    {warnings earlier : List Warning}
    (run : span accepts none source position = ⟨.ok text, after, warnings⟩)
    (available : readOne source after = ⟨.ok (some char), next, earlier⟩) :
    accepts char = false := by
  have unlimitedKept : ∀ limit position char next after warnings, limit = none →
        spanStep accepts limit source position = ⟨.ok (some (char, next)), after, warnings⟩ →
          next = none := by
    intro limit position char next after warnings unlimited stepRun
    subst unlimited
    obtain ⟨char?, between, _, _, _, stepRun⟩ := bind_eq_ok stepRun
    cases char? with
    | none => cases stepRun
    | some first =>
        simp only at stepRun
        split at stepRun
        · obtain ⟨one?, _, _, _, _, mapRun⟩ := bind_eq_ok stepRun
          cases one? <;> cases mapRun
          rfl
        · cases stepRun
  have ended := collect_ends unlimitedKept rfl run
  obtain ⟨limit, before, _, unlimited, stepRun⟩ := ended
  subst unlimited
  obtain ⟨same, refused⟩ := spanStep_eq_none stepRun
  subst same
  exact refused char next earlier available

/-- The blanks up to the next word or the end of the input. -/
def blankSpan : Reader Text :=
  span CodePoint.isBlank none

/-- The spaces and tabs up to any other character. -/
def spaceAndTabSpan : Reader Text :=
  span spacesAndTabs.contains none

end TclWords.Reader
