import TclWords.Reader

/-!
How runs compose.

`bind_eq_ok` and `bind_eq_error` take a run of two readers in sequence apart. The
readers form a lawful monad, so that a sequence may be regrouped.
-/

namespace TclWords

namespace Run

variable {α : Type}

@[ext] theorem ext {left right : Run α} (results : left.result = right.result)
    (positions : left.position = right.position)
    (warnings : left.warnings = right.warnings) : left = right := by
  cases left
  cases right
  simp only at results positions warnings
  rw [results, positions, warnings]

@[simp] theorem precededBy_nil (run : Run α) : run.precededBy [] = run := rfl

@[simp] theorem precededBy_result (run : Run α) (earlier : List Warning) :
    (run.precededBy earlier).result = run.result := rfl

end Run

namespace Reader

variable {α β : Type}

theorem pure_apply (value : α) (source : Source) (position : Nat) :
    (pure value : Reader α) source position = ⟨.ok value, position, []⟩ := rfl

theorem bind_apply (first : Reader α) (next : α → Reader β) (source : Source)
    (position : Nat) :
    (first >>= next) source position =
      match first source position with
      | ⟨.error fault, after, warnings⟩ => ⟨.error fault, after, warnings⟩
      | ⟨.ok value, after, warnings⟩ => (next value source after).precededBy warnings := rfl

/-- A sequence goes on where its first reader succeeded. -/
theorem bind_of_ok {first : Reader α} {next : α → Reader β} {source : Source}
    {position after : Nat} {value : α} {warnings : List Warning}
    (run : first source position = ⟨.ok value, after, warnings⟩) :
    (first >>= next) source position = (next value source after).precededBy warnings := by
  rw [bind_apply, run]

/-- A sequence ends where its first reader failed. -/
theorem bind_of_error {first : Reader α} {next : α → Reader β} {source : Source}
    {position after : Nat} {fault : Fault} {warnings : List Warning}
    (run : first source position = ⟨.error fault, after, warnings⟩) :
    (first >>= next) source position = ⟨.error fault, after, warnings⟩ := by
  rw [bind_apply, run]

/-- A sequence succeeds if both its parts do. -/
theorem bind_eq_ok {first : Reader α} {next : α → Reader β} {source : Source}
    {position after : Nat} {value : β} {warnings : List Warning}
    (run : (first >>= next) source position = ⟨.ok value, after, warnings⟩) :
    ∃ middle between earlier later,
      first source position = ⟨.ok middle, between, earlier⟩ ∧
        next middle source between = ⟨.ok value, after, later⟩ := by
  rw [bind_apply] at run
  split at run
  · cases run
  · next middle between earlier firstRun =>
      refine ⟨middle, between, earlier, (next middle source between).warnings, firstRun, ?_⟩
      have results := congrArg Run.result run
      have positions := congrArg Run.position run
      exact Run.ext results positions rfl

instance : LawfulMonad Reader := LawfulMonad.mk' Reader
  (by
    intro α reader
    funext source position
    show (reader >>= pure) source position = reader source position
    rw [bind_apply]
    split
    · next run => exact run.symm
    · next value after warnings run =>
        rw [run, pure_apply]
        simp only [Run.precededBy, List.append_nil])
  (by
    intro α β value next
    funext source position
    rfl)
  (by
    intro α β γ first second third
    funext source position
    simp only [bind_apply]
    cases firstRun : first source position with
    | mk result after warnings =>
        cases result with
        | error fault => rfl
        | ok value =>
            simp only
            cases secondRun : second value source after with
            | mk result later warnings =>
                cases result with
                | error fault => rfl
                | ok value =>
                    simp only [Run.precededBy, List.append_assoc])

/-- A change of the value leaves the rest of a run as it is. -/
theorem map_apply (change : α → β) (reader : Reader α) (source : Source) (position : Nat) :
    (change <$> reader) source position =
      ⟨(reader source position).result.map change, (reader source position).position,
        (reader source position).warnings⟩ := by
  rw [map_eq_pure_bind, bind_apply]
  cases run : reader source position with
  | mk result after warnings =>
      cases result with
      | error fault => rfl
      | ok value =>
          simp only [pure_apply, Run.precededBy, Except.map, List.append_nil]

end Reader

end TclWords
