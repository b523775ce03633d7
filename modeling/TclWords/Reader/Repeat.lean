import TclWords.Reader.Progress

/-!
Repeating a consuming reader.

`collect` runs a step until it yields nothing, with a state carried from step to
step, and gathers the items. It ends because every item passes a character.
`collect_eq` is the equation to reason with: one step, then the rest.
-/

namespace TclWords.Reader

variable {α σ : Type}

/-- The run of `collect`. -/
def collectFrom (step : σ → Reader (Option (α × σ)))
    (consuming : ∀ state, Consuming (step state)) (state : σ) (source : Source)
    (position : Nat) : Run (List α) :=
  match _stepRun : step state source position with
  | ⟨.error fault, after, warnings⟩ => ⟨.error fault, after, warnings⟩
  | ⟨.ok none, after, warnings⟩ => ⟨.ok [], after, warnings⟩
  | ⟨.ok (some (item, next)), after, warnings⟩ =>
    let rest := collectFrom step consuming next source after
    ⟨rest.result.map (item :: ·), rest.position, warnings ++ rest.warnings⟩
termination_by source.size - position
decreasing_by
  have bounds := consuming state source position (item, next) after warnings _stepRun
  omega

/-- The items of a step repeated until it yields none. -/
def collect (step : σ → Reader (Option (α × σ)))
    (consuming : ∀ state, Consuming (step state)) (state : σ) : Reader (List α) :=
  collectFrom step consuming state

/-- A step that yields an item goes before the items that follow. -/
theorem collect_eq (step : σ → Reader (Option (α × σ)))
    (consuming : ∀ state, Consuming (step state)) (state : σ) :
    collect step consuming state = (do
      match ← step state with
      | none => return []
      | some (item, next) => return item :: (← collect step consuming next)) := by
  funext source position
  show collectFrom step consuming state source position = _
  rw [collectFrom, bind_apply]
  split
  · next run => rw [run]
  · next run =>
      rw [run]
      simp only [Run.precededBy, pure_apply, List.append_nil]
  · next item next after warnings run =>
      rw [run]
      simp only [collect]
      cases restRun : collectFrom step consuming next source after with
      | mk result last later =>
          cases result with
          | error fault =>
              rw [bind_of_error restRun]
              rfl
          | ok items =>
              rw [bind_of_ok restRun]
              simp only [Run.precededBy, pure_apply, List.append_nil, Except.map]

section Runs

variable {step : σ → Reader (Option (α × σ))} {consuming : ∀ state, Consuming (step state)}
  {state next : σ} {source : Source} {position between after : Nat} {item : α}
  {earlier later : List Warning}

theorem collect_of_none (stepRun : step state source position = ⟨.ok none, after, earlier⟩) :
    collect step consuming state source position = ⟨.ok [], after, earlier⟩ := by
  rw [collect_eq, bind_of_ok stepRun]
  simp only [pure_apply, Run.precededBy, List.append_nil]

theorem collect_of_some
    (stepRun : step state source position = ⟨.ok (some (item, next)), between, earlier⟩)
    {result : Except Fault (List α)}
    (restRun : collect step consuming next source between = ⟨result, after, later⟩) :
    collect step consuming state source position =
      ⟨result.map (item :: ·), after, earlier ++ later⟩ := by
  rw [collect_eq, bind_of_ok stepRun]
  simp only
  cases result with
  | error fault =>
      rw [bind_of_error restRun]
      rfl
  | ok items =>
      rw [bind_of_ok restRun]
      simp only [pure_apply, Run.precededBy, Except.map, List.append_nil]

theorem collect_of_error {fault : Fault}
    (stepRun : step state source position = ⟨.error fault, after, earlier⟩) :
    collect step consuming state source position = ⟨.error fault, after, earlier⟩ := by
  rw [collect_eq, bind_of_error stepRun]

end Runs

theorem forward_collect (step : σ → Reader (Option (α × σ)))
    (consuming : ∀ state, Consuming (step state)) (forward : ∀ state, Forward (step state))
    (state : σ) : Forward (collect step consuming state) := by
  intro source position
  induction remaining : source.size - position using Nat.strongRecOn
    generalizing state position with
  | ind count inductionHypothesis =>
      intro items after warnings run
      rw [collect_eq] at run
      obtain ⟨item?, between, earlier, later, stepRun, restRun⟩ := bind_eq_ok run
      have stepBounds := forward state source position item? between earlier stepRun
      cases item? with
      | none =>
          cases restRun
          omega
      | some found =>
          obtain ⟨item, next⟩ := found
          have consumed := consuming state source position _ between earlier stepRun
          obtain ⟨rest, last, _, _, collectRun, pureRun⟩ := bind_eq_ok restRun
          have restBounds := inductionHypothesis (source.size - between) (by omega) next
            between rfl rest last _ collectRun
          cases pureRun
          omega

/-- A step without a state as one that carries a trivial state. -/
def stateless (step : Reader (Option α)) (_ : Unit) : Reader (Option (α × Unit)) := do
  return (← step).map fun item => (item, ())

theorem Consuming.stateless {step : Reader (Option α)} (consuming : Consuming step)
    (state : Unit) : Consuming (stateless step state) := by
  intro source position found after warnings run
  obtain ⟨item?, between, earlier, later, stepRun, mapRun⟩ := bind_eq_ok run
  cases item? with
  | none => cases mapRun
  | some item =>
      cases mapRun
      exact consuming source position item after earlier stepRun

/-- The items of a step without a state, repeated until it yields none. -/
def repeatedly (step : Reader (Option α)) (consuming : Consuming step) : Reader (List α) :=
  collect (stateless step) consuming.stateless ()

theorem repeatedly_eq (step : Reader (Option α)) (consuming : Consuming step) :
    repeatedly step consuming = (do
      match ← step with
      | none => return []
      | some item => return item :: (← repeatedly step consuming)) := by
  conv =>
    lhs
    rw [repeatedly, collect_eq]
  simp only [stateless, bind_assoc, pure_bind]
  congr 1
  funext item?
  cases item? <;> rfl

section Runs

variable {step : Reader (Option α)} {consuming : Consuming step} {source : Source}
  {position between after : Nat} {item : α} {earlier later : List Warning}

theorem repeatedly_of_none (stepRun : step source position = ⟨.ok none, after, earlier⟩) :
    repeatedly step consuming source position = ⟨.ok [], after, earlier⟩ := by
  rw [repeatedly_eq, bind_of_ok stepRun]
  simp only [pure_apply, Run.precededBy, List.append_nil]

theorem repeatedly_of_some
    (stepRun : step source position = ⟨.ok (some item), between, earlier⟩)
    {result : Except Fault (List α)}
    (restRun : repeatedly step consuming source between = ⟨result, after, later⟩) :
    repeatedly step consuming source position =
      ⟨result.map (item :: ·), after, earlier ++ later⟩ := by
  apply collect_of_some _ restRun
  rw [stateless, bind_of_ok stepRun]
  simp only [pure_apply, Run.precededBy, Option.map_some, List.append_nil]

end Runs

theorem forward_repeatedly {step : Reader (Option α)} (consuming : Consuming step)
    (forward : Forward step) : Forward (repeatedly step consuming) :=
  forward_collect _ _ (fun _ => forward.bind fun _ => forward_pure _) ()

end TclWords.Reader
