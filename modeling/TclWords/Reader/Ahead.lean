import TclWords.Reader.Repeat

/-!
Looking ahead agrees with reading.

The sources look ahead each in its own way. Where a character can be read, all of
them see that character ahead.
-/

namespace TclWords.Reader

variable {α β σ : Type}

private theorem take_one_drop {text : Text} {position : Nat} {char : CodePoint}
    (found : text[position]? = some char) : (text.drop position).take 1 = [char] := by
  obtain ⟨inText, same⟩ := List.getElem?_eq_some_iff.mp found
  rw [List.drop_eq_getElem_cons inText, same]
  rfl

private theorem slice_one {text : Text} {position : Nat} {char : CodePoint}
    (found : text[position]? = some char) :
    text.slice position (position + 1) = [char] := by
  have notNegative : ¬ ((position : Int) + 1 < 0) := by omega
  have bound : ((position : Int) + 1).toNat - position = 1 := by omega
  simp only [Text.slice, notNegative, if_false, bound]
  exact take_one_drop found

private theorem peekByReading_one {text : Text} {position : Nat} {char : CodePoint}
    (found : text[position]? = some char) :
    peekByReading 1 (.stepping text) position = ⟨.ok [char], position, []⟩ := by
  have inText := (List.getElem?_eq_some_iff.mp found).1
  have one : readUpTo 1 (.stepping text) position = ⟨.ok [char], position + 1, []⟩ := by
    rw [readUpTo, bind_apply]
    simp only [readOne, found]
    rfl
  have back : seek position (.stepping text) (position + 1) = ⟨.ok (), position, []⟩ := by
    have admitted : 0 ≤ (position : Int) ∧ (position : Int) ≤ text.length := by omega
    simp only [seek, Source.seek?, if_pos admitted, Int.toNat_natCast]
  show (readUpTo 1 >>= fun ahead => seek position >>= fun _ => pure ahead)
    (.stepping text) position = _
  rw [bind_of_ok one, bind_of_ok back]
  rfl

/-- Where a character can be read, nothing else is seen ahead. -/
theorem peek_one_eq_of_readOne {source : Source} {position after between : Nat}
    {char : CodePoint} {text : Text} {warnings earlier : List Warning}
    (available : readOne source position = ⟨.ok (some char), after, warnings⟩)
    (ahead : peek 1 source position = ⟨.ok text, between, earlier⟩) : text = [char] := by
  cases source with
  | indexed contents =>
      simp only [readOne] at available
      split at available
      · next found =>
          cases available
          simp only [peek, slice_one found] at ahead
          cases ahead
          rfl
      · cases available
  | stepping contents =>
      simp only [readOne] at available
      split at available
      · next found =>
          cases available
          rw [peek, peekByReading_one found] at ahead
          cases ahead
          rfl
      · cases available
  | stream contents =>
      simp only [readOne] at available
      split at available
      · next found =>
          cases available
          cases ahead
          exact take_one_drop found
      · cases available
  | binary bytes => cases available
  | file handle =>
      simp only [readOne] at available
      split at available
      · cases available
      split at available
      · next found =>
          cases available
          have inText := (List.getElem?_eq_some_iff.mp found).1
          have enough : ¬ ((handle.text.drop position).length : Int) < 1 := by
            rw [List.length_drop]
            omega
          simp only [peek, enough] at ahead
          split at ahead
          · cases ahead
          · cases ahead
            exact take_one_drop found
      · split at available <;> cases available

theorem peekOne_eq_of_readOne {source : Source} {position after between : Nat}
    {char : CodePoint} {char? : Option CodePoint} {warnings earlier : List Warning}
    (available : readOne source position = ⟨.ok (some char), after, warnings⟩)
    (ahead : peekOne source position = ⟨.ok char?, between, earlier⟩) :
    char? = some char := by
  obtain ⟨text, _, _, _, textRun, headRun⟩ := bind_eq_ok ahead
  cases headRun
  rw [peek_one_eq_of_readOne available textRun, List.head?_cons]

/-- A repetition ends with a step that yields nothing, in a state and at a position that
the steps before it lead to. -/
theorem collect_ends {step : σ → Reader (Option (α × σ))}
    {consuming : ∀ state, Consuming (step state)} {source : Source}
    {Reached : σ → Nat → Prop}
    (kept : ∀ state position item next after warnings, Reached state position →
      step state source position = ⟨.ok (some (item, next)), after, warnings⟩ →
        Reached next after)
    {state : σ} {position after : Nat} (reached : Reached state position)
    {items : List α} {warnings : List Warning}
    (run : collect step consuming state source position = ⟨.ok items, after, warnings⟩) :
    ∃ last before earlier, Reached last before ∧
      step last source before = ⟨.ok none, after, earlier⟩ := by
  induction remaining : source.size - position using Nat.strongRecOn
    generalizing state position items warnings with
  | ind count inductionHypothesis =>
      rw [collect_eq] at run
      obtain ⟨item?, between, earlier, later, stepRun, restRun⟩ := bind_eq_ok run
      cases item? with
      | none =>
          cases restRun
          exact ⟨state, position, earlier, reached, stepRun⟩
      | some found =>
          obtain ⟨item, next⟩ := found
          have bounds := consuming state source position _ between earlier stepRun
          obtain ⟨rest, last, _, _, collectRun, pureRun⟩ := bind_eq_ok restRun
          cases pureRun
          exact inductionHypothesis (source.size - between) (by omega)
            (kept state position item next between earlier reached stepRun) collectRun rfl

theorem repeatedly_ends {step : Reader (Option α)} {consuming : Consuming step}
    {source : Source} {Reached : Nat → Prop}
    (kept : ∀ position item after warnings, Reached position →
      step source position = ⟨.ok (some item), after, warnings⟩ → Reached after)
    {position after : Nat} (reached : Reached position) {items : List α}
    {warnings : List Warning}
    (run : repeatedly step consuming source position = ⟨.ok items, after, warnings⟩) :
    ∃ before earlier, Reached before ∧ step source before = ⟨.ok none, after, earlier⟩ := by
  have keptStateless : ∀ state position item next after warnings, Reached position →
      stateless step state source position = ⟨.ok (some (item, next)), after, warnings⟩ →
        Reached after := by
    intro state position item next after warnings reached stepRun
    obtain ⟨item?, between, _, _, innerRun, mapRun⟩ := bind_eq_ok stepRun
    cases item? with
    | none => cases mapRun
    | some found =>
        cases mapRun
        exact kept position item after _ reached innerRun
  have ended := collect_ends keptStateless reached run
  obtain ⟨_, before, _, reachedBefore, stepRun⟩ := ended
  obtain ⟨item?, between, _, _, innerRun, mapRun⟩ := bind_eq_ok stepRun
  cases item? with
  | none =>
      cases mapRun
      exact ⟨before, _, reachedBefore, innerRun⟩
  | some found => cases mapRun

end TclWords.Reader
