import TclWords.CodePoint

/-!
Which characters a backslash escapes.

Owns: `Text.Escapes`, by which the backslashes that end a text escape the character behind
it; the places where a character stands unescaped, and their number. A text that escapes
nothing can be cut off in front: behind it, the same characters are escaped as before.
-/

namespace TclWords.Text

/-- The length of the run of backslashes that ends the text. -/
def backslashesAtEnd (text : Text) : Nat :=
  (text.reverse.takeWhile (· = .backslash)).length

/-- The character behind the text is escaped: the run of backslashes in front of it is of
odd length, so that one of them is left when each two of them pair up. -/
def Escapes (front : Text) : Prop :=
  front.backslashesAtEnd % 2 = 1

instance (front : Text) : Decidable front.Escapes :=
  inferInstanceAs (Decidable (front.backslashesAtEnd % 2 = 1))

/-- The character stands at `index`, and is not escaped there. -/
def UnescapedAt (text : Text) (char : CodePoint) (index : Nat) : Prop :=
  text[index]? = some char ∧ ¬ Escapes (text.take index)

instance (text : Text) (char : CodePoint) (index : Nat) :
    Decidable (text.UnescapedAt char index) :=
  inferInstanceAs (Decidable (_ ∧ _))

/-- How often the character stands unescaped in the text. -/
def countUnescaped (text : Text) (char : CodePoint) : Nat :=
  (List.range text.length).countP fun index => text.UnescapedAt char index

variable {front rest : Text} {char sought : CodePoint} {index : Nat}

/-! ### Texts that escape nothing -/

/-- A text that escapes nothing does not count for what is escaped behind it. -/
theorem escapes_append (whole : ¬ front.Escapes) :
    Escapes (front ++ rest) ↔ rest.Escapes := by
  have frontEven : ¬ (front.reverse.takeWhile (· = .backslash)).length % 2 = 1 := whole
  unfold Escapes backslashesAtEnd
  rw [List.reverse_append, List.takeWhile_append]
  split
  · next allOfRest =>
      rw [List.length_append, allOfRest]
      omega
  · rfl

theorem not_escapes_append (whole : ¬ front.Escapes) (wholeRest : ¬ rest.Escapes) :
    ¬ Escapes (front ++ rest) := by
  rwa [escapes_append whole]

/-- Only a backslash escapes what follows it, unless it is escaped itself. -/
theorem escapes_concat : Escapes (front ++ [char]) ↔ char = .backslash ∧ ¬ front.Escapes := by
  unfold Escapes backslashesAtEnd
  rw [List.reverse_append, List.reverse_singleton, List.singleton_append]
  by_cases isBackslash : char = .backslash
  · rw [List.takeWhile_cons_of_pos (by simpa using isBackslash), List.length_cons]
    simp only [isBackslash, true_and]
    omega
  · rw [List.takeWhile_cons_of_neg (by simpa using isBackslash)]
    simp [isBackslash]

theorem not_escapes_concat (notBackslash : char ≠ .backslash) : ¬ Escapes (front ++ [char]) :=
  fun escapes => notBackslash (escapes_concat.mp escapes).1

theorem not_escapes_nil : ¬ Escapes [] := by
  decide

theorem not_escapes_singleton (notBackslash : char ≠ .backslash) : ¬ Escapes [char] := by
  have noRun : backslashesAtEnd [char] = 0 := by
    simp [backslashesAtEnd, notBackslash]
  rw [Escapes, noRun]
  decide

/-- A backslash uses itself up on the character behind it. -/
theorem not_escapes_pair (char : CodePoint) : ¬ Escapes [.backslash, char] := by
  by_cases isBackslash : char = .backslash
  · rw [isBackslash]
    decide
  · have noRun : backslashesAtEnd [.backslash, char] = 0 := by
      simp [backslashesAtEnd, isBackslash]
    rw [Escapes, noRun]
    decide

theorem not_escapes_of_notMem {text : Text} (noBackslash : .backslash ∉ text) :
    ¬ text.Escapes := by
  induction text with
  | nil => exact not_escapes_nil
  | cons char text inductionHypothesis =>
      rw [List.mem_cons, not_or] at noBackslash
      exact not_escapes_append (not_escapes_singleton (Ne.symm noBackslash.1))
        (inductionHypothesis noBackslash.2)

/-! ### Unescaped characters -/

theorem unescapedAt_append_left (inFront : index < front.length) :
    UnescapedAt (front ++ rest) sought index ↔ front.UnescapedAt sought index := by
  unfold UnescapedAt
  rw [List.getElem?_append_left inFront, List.take_append_of_le_length (Nat.le_of_lt inFront)]

theorem unescapedAt_append_right (whole : ¬ front.Escapes) :
    UnescapedAt (front ++ rest) sought (front.length + index) ↔
      rest.UnescapedAt sought index := by
  unfold UnescapedAt
  rw [List.getElem?_append_right (Nat.le_add_right _ _), Nat.add_sub_cancel_left,
    List.take_length_add_append, escapes_append whole]

theorem unescapedAt_singleton : UnescapedAt [char] sought index ↔ index = 0 ∧ char = sought := by
  constructor
  · rintro ⟨found, _⟩
    rcases index with _ | index
    · exact ⟨rfl, Option.some.inj found⟩
    · cases found
  · rintro ⟨rfl, rfl⟩
    exact ⟨rfl, not_escapes_nil⟩

/-- Of a backslash and the character behind it, only the backslash is unescaped. -/
theorem unescapedAt_pair :
    UnescapedAt [.backslash, char] sought index ↔ index = 0 ∧ sought = .backslash := by
  constructor
  · rintro ⟨found, notEscaped⟩
    rcases index with _ | _ | index
    · exact ⟨rfl, (Option.some.inj found).symm⟩
    · have escaped : Escapes [.backslash] := by decide
      exact absurd escaped notEscaped
    · cases found
  · rintro ⟨rfl, rfl⟩
    exact ⟨rfl, not_escapes_nil⟩

/-- In a backslash sequence only the backslash that begins it is unescaped, of what does not
stand further on. -/
theorem unescapedAt_sequence {tail : Text} (notMem : sought ∉ tail)
    (found : UnescapedAt (.backslash :: char :: tail) sought index) :
    index = 0 ∧ sought = .backslash := by
  by_cases inPair : index < 2
  · have inFront : UnescapedAt [.backslash, char] sought index :=
      (unescapedAt_append_left inPair).mp found
    exact unescapedAt_pair.mp inFront
  · have behind := found.1
    rw [show index = index - 2 + 1 + 1 by omega, List.getElem?_cons_succ,
      List.getElem?_cons_succ] at behind
    exact absurd (List.mem_of_getElem? behind) notMem

theorem lt_length_of_unescapedAt (found : rest.UnescapedAt sought index) :
    index < rest.length :=
  (List.getElem?_eq_some_iff.mp found.1).1

theorem countUnescaped_append (whole : ¬ front.Escapes) (rest : Text) (sought : CodePoint) :
    countUnescaped (front ++ rest) sought =
      front.countUnescaped sought + rest.countUnescaped sought := by
  have inFront : (List.range front.length).countP
      (fun index => decide (UnescapedAt (front ++ rest) sought index)) =
        front.countUnescaped sought := by
    apply List.countP_congr
    intro index member
    simp only [decide_eq_true_eq]
    exact unescapedAt_append_left (List.mem_range.mp member)
  have behind : ((List.range rest.length).map (front.length + ·)).countP
      (fun index => decide (UnescapedAt (front ++ rest) sought index)) =
        rest.countUnescaped sought := by
    rw [List.countP_map]
    apply List.countP_congr
    intro index _
    simp only [Function.comp_apply, decide_eq_true_eq]
    exact unescapedAt_append_right whole
  rw [countUnescaped, List.length_append, List.range_add, List.countP_append, inFront, behind]

theorem countUnescaped_eq_zero {text : Text} (nowhere : ∀ index, ¬ text.UnescapedAt sought index) :
    text.countUnescaped sought = 0 := by
  rw [countUnescaped, List.countP_eq_zero]
  intro index _
  rw [decide_eq_true_eq]
  exact nowhere index

theorem countUnescaped_singleton (char sought : CodePoint) :
    countUnescaped [char] sought = if char = sought then 1 else 0 := by
  have one : List.range [char].length = [0] := rfl
  rw [countUnescaped, one, List.countP_singleton]
  simp only [unescapedAt_singleton, true_and, decide_eq_true_eq]

end TclWords.Text
