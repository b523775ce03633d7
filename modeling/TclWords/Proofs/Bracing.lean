import TclWords.Proofs.Shown.Word
import TclWords.Proofs.Unescaped

/-!
Braced words end at the matching brace.

Owns: the depth of a text in braces that no backslash escapes; the brace that closes a
word; the contents of a word with its continued lines folded; and that reading a braced
word comes to exactly this, or tells how many braces are unmatched.
-/

namespace TclWords.Braced

open TclWords.Reader

/-! ### Matching braces -/

/-- How many braces are open behind the contents if `opened` are open in front of them.
Escaped braces do not count. -/
def depth (opened : Nat) (contents : Text) : Int :=
  opened + contents.countUnescaped .openBrace - contents.countUnescaped .closeBrace

/-- At `index` an unescaped close brace stands, and behind it no brace is open. -/
def ClosesAt (opened : Nat) (rest : Text) (index : Nat) : Prop :=
  rest.UnescapedAt .closeBrace index ∧ depth opened (rest.take (index + 1)) = 0

instance (opened : Nat) (rest : Text) (index : Nat) : Decidable (ClosesAt opened rest index) :=
  inferInstanceAs (Decidable (_ ∧ _))

/-- The first index at which the word is closed. -/
def FirstCloseAt (opened : Nat) (rest : Text) (index : Nat) : Prop :=
  ClosesAt opened rest index ∧ ∀ earlier < index, ¬ ClosesAt opened rest earlier

/-- The text as it is behind `front` when its continued lines are folded: an unescaped
backslash that ends a line becomes one space, together with the line end and the spaces and
tabs that begin the next line. -/
def foldBehind (front text : Text) : Text :=
  match text with
  | [] => []
  | char :: rest =>
    if char = .backslash ∧ ¬ front.Escapes ∧ rest.head? = some .newline then
      .space :: foldBehind (front ++ [.backslash, .newline])
        (rest.tail.dropWhile spacesAndTabs.contains)
    else char :: foldBehind (front ++ [char]) rest
termination_by text.length
decreasing_by
  · have dropped := (List.dropWhile_sublist (l := rest.tail) spacesAndTabs.contains).length_le
    rw [List.length_tail] at dropped
    rw [List.length_cons]
    omega
  · exact Nat.lt_succ_self rest.length

/-- The contents with their continued lines folded. -/
def folded (contents : Text) : Text :=
  foldBehind [] contents

variable {rest unit : Text} {char : CodePoint} {opened : Nat}

theorem depth_append (whole : ¬ unit.Escapes) {next : Nat}
    (deeper : depth opened unit = next) (rest : Text) :
    depth opened (unit ++ rest) = depth next rest := by
  unfold depth at *
  rw [Text.countUnescaped_append whole, Text.countUnescaped_append whole]
  omega

theorem closesAt_append (whole : ¬ unit.Escapes) {next : Nat}
    (deeper : depth opened unit = next) (index : Nat) :
    ClosesAt opened (unit ++ rest) (unit.length + index) ↔ ClosesAt next rest index := by
  unfold ClosesAt
  rw [Text.unescapedAt_append_right whole, Nat.add_assoc, List.take_length_add_append,
    depth_append whole deeper]

/-- Whether a brace closes the word does not depend on what follows it. -/
theorem closesAt_append_left {index : Nat} (inFront : index < unit.length) :
    ClosesAt opened (unit ++ rest) index ↔ ClosesAt opened unit index := by
  unfold ClosesAt
  rw [Text.unescapedAt_append_left inFront, List.take_append_of_le_length inFront]

theorem FirstCloseAt.unique {index other : Nat} (first : FirstCloseAt opened rest index)
    (firstOther : FirstCloseAt opened rest other) : index = other := by
  rcases Nat.lt_trichotomy index other with before | same | behind
  · exact absurd first.1 (firstOther.2 index before)
  · exact same
  · exact absurd firstOther.1 (first.2 other behind)

theorem firstCloseAt_append_left {index : Nat} (inFront : index < unit.length) :
    FirstCloseAt opened (unit ++ rest) index ↔ FirstCloseAt opened unit index :=
  and_congr (closesAt_append_left inFront) (forall_congr' fun _ => forall_congr' fun before =>
    not_congr (closesAt_append_left (Nat.lt_trans before inFront)))

theorem FirstCloseAt.append {index : Nat} (first : FirstCloseAt opened unit index)
    (rest : Text) : FirstCloseAt opened (unit ++ rest) index :=
  (firstCloseAt_append_left (Text.lt_length_of_unescapedAt first.1.1)).mpr first

/-! ### Folding continued lines -/

/-- Of what stands in front, it only counts whether it escapes the first character. -/
theorem foldBehind_congr {front other : Text} (same : front.Escapes ↔ other.Escapes)
    (text : Text) : foldBehind front text = foldBehind other text := by
  fun_induction foldBehind front text generalizing other with
  | case1 front => rw [foldBehind]
  | case2 front char rest folds inductionHypothesis =>
      have notEscaped : ∀ text : Text, ¬ Text.Escapes (text ++ [.backslash, .newline]) := by
        intro text escaped
        rw [List.append_cons text .backslash, Text.escapes_concat] at escaped
        exact absurd escaped.1 (by decide)
      rw [foldBehind, if_pos ⟨folds.1, (not_congr same).mp folds.2.1, folds.2.2⟩,
        inductionHypothesis (iff_of_false (notEscaped front) (notEscaped other))]
  | case3 front char rest kept inductionHypothesis =>
      have keptBehind : ¬ (char = .backslash ∧ ¬ other.Escapes ∧ rest.head? = some .newline) :=
        fun folds => kept ⟨folds.1, (not_congr same).mpr folds.2.1, folds.2.2⟩
      rw [foldBehind, if_neg keptBehind, inductionHypothesis]
      rw [Text.escapes_concat, Text.escapes_concat, same]

theorem folded_of_plain (notBackslash : char ≠ .backslash) (rest : Text) :
    folded (char :: rest) = char :: folded rest := by
  rw [folded, foldBehind, if_neg fun folds => notBackslash folds.1]
  congr 1
  exact foldBehind_congr
    (iff_of_false (Text.not_escapes_singleton notBackslash) Text.not_escapes_nil) rest

theorem folded_of_pair (notNewline : char ≠ .newline) (rest : Text) :
    folded (.backslash :: char :: rest) = .backslash :: char :: folded rest := by
  have escaped : Text.Escapes ([] ++ [.backslash]) := by decide
  rw [folded, foldBehind, if_neg fun folds => notNewline (Option.some.inj folds.2.2), foldBehind,
    if_neg fun folds => folds.2.1 escaped]
  congr 2
  exact foldBehind_congr
    (iff_of_false (Text.not_escapes_pair char) Text.not_escapes_nil) rest

theorem folded_of_fold (rest : Text) :
    folded (.backslash :: .newline :: rest) =
      .space :: folded (rest.dropWhile spacesAndTabs.contains) := by
  rw [folded, foldBehind, if_pos ⟨rfl, Text.not_escapes_nil, rfl⟩]
  congr 1
  exact foldBehind_congr
    (iff_of_false (Text.not_escapes_pair .newline) Text.not_escapes_nil) _

/-! ### Units of the contents -/

/-- A piece of the contents that a reader inside of `inner` braces keeps as `piece`, and
behind which it is inside of `next` braces: it escapes nothing, does not close the word, and
is kept so however much of the text behind it belongs to the word. -/
structure Passes (inner next : Nat) (unit piece rest : Text) : Prop where
  whole : ¬ unit.Escapes
  deeper : depth (inner + 1) unit = (next + 1 : Nat)
  staysOpen : ∀ index < unit.length, ¬ ClosesAt (inner + 1) unit index
  folds : ∀ count, folded (unit ++ rest.take count) = piece ++ folded (rest.take count)

variable {inner next : Nat}

private theorem passes_char (notBackslash : char ≠ .backslash)
    (deeper : depth (inner + 1) [char] = (next + 1 : Nat)) :
    Passes inner next [char] [char] rest where
  whole := Text.not_escapes_singleton notBackslash
  deeper := deeper
  staysOpen := by
    rintro index _ ⟨_, closed⟩
    rw [List.take_of_length_le (Nat.succ_le_succ (Nat.zero_le index)), deeper] at closed
    omega
  folds := fun count => folded_of_plain notBackslash (rest.take count)

private theorem depth_singleton (opened : Nat) (char : CodePoint) :
    depth opened [char] = opened + (if char = .openBrace then 1 else 0) -
      (if char = .closeBrace then 1 else 0) := by
  unfold depth
  rw [Text.countUnescaped_singleton, Text.countUnescaped_singleton]
  split <;> split <;> rfl

/-- A backslash, what it escapes, and more without backslashes and braces. -/
private theorem passes_sequence {tail piece : Text} (noBackslash : .backslash ∉ tail)
    (noOpen : .openBrace ∉ tail) (noClose : .closeBrace ∉ tail)
    (folds : ∀ count, folded (.backslash :: char :: tail ++ rest.take count) =
      piece ++ folded (rest.take count)) :
    Passes inner inner (.backslash :: char :: tail) piece rest := by
  have noBrace : ∀ {brace}, brace ∉ tail → brace ≠ .backslash → ∀ index,
      ¬ Text.UnescapedAt (.backslash :: char :: tail) brace index :=
    fun notMem notBackslash _ found => notBackslash (Text.unescapedAt_sequence notMem found).2
  refine ⟨?_, ?_, fun index _ closes => noBrace noClose (by decide) index closes.1, folds⟩
  · exact Text.not_escapes_append (Text.not_escapes_pair char)
      (Text.not_escapes_of_notMem noBackslash)
  · rw [depth, Text.countUnescaped_eq_zero (noBrace noOpen (by decide)),
      Text.countUnescaped_eq_zero (noBrace noClose (by decide))]
    omega

private theorem dropWhile_take (accepts : CodePoint → Bool) (rest : Text) (count : Nat) :
    ((rest.dropWhile accepts).take count).dropWhile accepts =
      (rest.dropWhile accepts).take count := by
  have stops := List.head?_dropWhile_not accepts rest
  rcases behind : rest.dropWhile accepts with _ | ⟨char, later⟩
  · rw [List.take_nil, List.dropWhile_nil]
  · rw [behind] at stops
    rcases count with _ | count
    · rfl
    · rw [List.take_succ_cons]
      exact List.dropWhile_cons_of_neg (Bool.eq_false_iff.mp stops)

/-- A continued line: the spaces and tabs that begin the next line all belong to the unit. -/
private theorem passes_fold (inner : Nat) (rest : Text) :
    Passes inner inner (.backslash :: .newline :: rest.takeWhile spacesAndTabs.contains)
      [.space] (rest.dropWhile spacesAndTabs.contains) := by
  have swallowed : ∀ char ∈ rest.takeWhile spacesAndTabs.contains, spacesAndTabs.contains char :=
    List.all_eq_true.mp List.all_takeWhile
  have notMem : ∀ char, spacesAndTabs.contains char = false →
      char ∉ rest.takeWhile spacesAndTabs.contains := by
    intro char refused member
    rw [swallowed char member] at refused
    cases refused
  apply passes_sequence (notMem _ (by decide)) (notMem _ (by decide)) (notMem _ (by decide))
  intro count
  rw [List.cons_append, List.cons_append, folded_of_fold,
    List.dropWhile_append_of_pos swallowed, dropWhile_take]
  rfl

private theorem passes_pair (notNewline : char ≠ .newline) (inner : Nat) (rest : Text) :
    Passes inner inner [.backslash, char] [.backslash, char] rest :=
  passes_sequence List.not_mem_nil List.not_mem_nil List.not_mem_nil
    fun count => folded_of_pair notNewline (rest.take count)

/-! ### Reading braced words -/

/-- What reading on comes to inside of `inner` braces: the pieces up to the brace that closes
the word, or the count of the braces that are open at the end. -/
inductive Outcome (start position inner : Nat) (rest : Text) (run : Run (List Text)) : Prop where
  | closed {index : Nat} {pieces : List Text} (first : FirstCloseAt (inner + 1) rest index)
      (contents : pieces.flatten = folded (rest.take index))
      (closes : run = ⟨.ok pieces, position + index + 1, []⟩)
  | unclosed {unmatched : Nat} (never : ∀ index, ¬ ClosesAt (inner + 1) rest index)
      (positive : 1 ≤ unmatched) (counted : (unmatched : Int) = depth (inner + 1) rest)
      (fails : run = ⟨.error (.unterminatedBrace start unmatched), start, []⟩)

section Runs

variable {source : Source} {start position : Nat} {piece : Text}

private theorem outcome_of_unit (passes : Passes inner next unit piece rest)
    (stepRun : step start inner source position =
      ⟨.ok (some (piece, next)), position + unit.length, []⟩)
    (outcome : Outcome start (position + unit.length) next rest
      (collect (step start) (consuming_step start) next source (position + unit.length))) :
    Outcome start position inner (unit ++ rest)
      (collect (step start) (consuming_step start) inner source position) := by
  have closesAt : ∀ index, ClosesAt (inner + 1) (unit ++ rest) index →
      ∃ later, index = unit.length + later ∧ ClosesAt (next + 1) rest later := by
    intro index closes
    by_cases inUnit : index < unit.length
    · exact absurd ((closesAt_append_left inUnit).mp closes) (passes.staysOpen index inUnit)
    · refine ⟨index - unit.length, by omega, ?_⟩
      rwa [← closesAt_append passes.whole passes.deeper,
        Nat.add_sub_cancel' (Nat.le_of_not_lt inUnit)]
  cases outcome with
  | @closed index pieces first contents closes =>
      have firstInAll : FirstCloseAt (inner + 1) (unit ++ rest) (unit.length + index) := by
        refine ⟨(closesAt_append passes.whole passes.deeper index).mpr first.1, ?_⟩
        intro earlier inFront closesEarlier
        rcases closesAt earlier closesEarlier with ⟨later, same, closesLater⟩
        exact first.2 later (by omega) closesLater
      have contentsInAll : (piece :: pieces).flatten =
          folded ((unit ++ rest).take (unit.length + index)) := by
        rw [List.flatten_cons, contents, List.take_length_add_append, passes.folds]
      refine .closed firstInAll contentsInAll ?_
      rw [collect_of_some stepRun closes, ← Nat.add_assoc position]
      rfl
  | @unclosed unmatched never positive counted fails =>
      refine .unclosed ?_ positive ?_ ?_
      · intro index closes
        rcases closesAt index closes with ⟨later, _, closesLater⟩
        exact never later closesLater
      · rw [depth_append passes.whole passes.deeper, counted]
      · rw [collect_of_some stepRun fails]
        rfl

private theorem outcome_of_nil (opened : source.Stands start) (shown : source.Shows position [])
    (inner : Nat) :
    Outcome start position inner []
      (collect (step start) (consuming_step start) inner source position) := by
  refine .unclosed ?_ (Nat.le_add_left 1 inner) ?_
    (collect_of_error (step_of_nil opened shown inner))
  · intro index closes
    exact absurd (Text.lt_length_of_unescapedAt closes.1) (Nat.not_lt_zero index)
  · rw [depth, Text.countUnescaped, Text.countUnescaped]
    simp

/-- A backslash at the end of the input belongs to the contents, but nothing follows it. -/
private theorem outcome_of_last_backslash (opened : source.Stands start)
    (shown : source.Shows position [.backslash]) (inner : Nat) :
    Outcome start position inner [.backslash]
      (collect (step start) (consuming_step start) inner source position) := by
  refine .unclosed ?_ (Nat.le_add_left 1 inner) ?_ ?_
  · intro index closes
    exact absurd (Text.unescapedAt_singleton.mp closes.1).2 (by decide)
  · rw [depth_singleton, if_neg (by decide), if_neg (by decide)]
    omega
  · rw [collect_of_some (step_of_last_backslash shown inner)
      (collect_of_error (step_of_nil opened shown.tail inner))]
    rfl

private theorem outcome_of_close (shown : source.Shows position (.closeBrace :: rest)) :
    Outcome start position 0 (.closeBrace :: rest)
      (collect (step start) (consuming_step start) 0 source position) := by
  have closes : ClosesAt 1 (.closeBrace :: rest) 0 := by
    refine ⟨⟨rfl, Text.not_escapes_nil⟩, ?_⟩
    rw [List.take_succ_cons, List.take_zero, depth_singleton, if_neg (by decide), if_pos rfl]
    rfl
  have first : FirstCloseAt 1 (.closeBrace :: rest) 0 :=
    ⟨closes, fun earlier before => absurd before (Nat.not_lt_zero earlier)⟩
  refine .closed first ?_ (collect_of_none (step_of_close shown))
  rw [List.take_zero, folded, foldBehind, List.flatten_nil]

theorem collect_outcome (opened : source.Stands start) (shown : source.Shows position rest)
    (inner : Nat) :
    Outcome start position inner rest
      (collect (step start) (consuming_step start) inner source position) := by
  -- On the length of the text shown, as a folded line takes any number of characters.
  induction remaining : rest.length using Nat.strongRecOn
    generalizing rest position inner with
  | ind count inductionHypothesis =>
      have onward : ∀ {unit later piece : Text} {next : Nat}, unit ≠ [] →
          rest = unit ++ later → Passes inner next unit piece later →
          step start inner source position =
            ⟨.ok (some (piece, next)), position + unit.length, []⟩ →
          Outcome start position inner rest
            (collect (step start) (consuming_step start) inner source position) := by
        intro unit later piece next nonempty same passes stepRun
        subst same
        have taken := List.length_pos_iff.mpr nonempty
        rw [List.length_append] at remaining
        exact outcome_of_unit passes stepRun
          (inductionHypothesis later.length (by omega) shown.append next rfl)
      rcases rest with _ | ⟨char, rest⟩
      · exact outcome_of_nil opened shown inner
      by_cases isBackslash : char = .backslash
      · subst isBackslash
        rcases rest with _ | ⟨second, rest⟩
        · exact outcome_of_last_backslash opened shown inner
        by_cases isNewline : second = .newline
        · subst isNewline
          refine onward (List.cons_ne_nil _ _) ?_ (passes_fold inner rest) ?_
          · rw [List.cons_append, List.cons_append, List.takeWhile_append_dropWhile]
          · rw [step_of_fold shown, List.length_cons, List.length_cons, Nat.add_assoc position,
              Nat.add_comm 2]
        · exact onward (List.cons_ne_nil _ _) rfl (passes_pair isNewline inner rest)
            (step_of_pair shown isNewline inner)
      by_cases isOpen : char = .openBrace
      · subst isOpen
        have deeper : depth (inner + 1) [.openBrace] = (inner + 1 + 1 : Nat) := by
          rw [depth_singleton, if_pos rfl, if_neg (by decide)]
          omega
        exact onward (List.cons_ne_nil _ _) rfl (passes_char isBackslash deeper)
          (step_of_open shown inner)
      by_cases isClose : char = .closeBrace
      · subst isClose
        rcases inner with _ | inner
        · exact outcome_of_close shown
        have shallower : depth (inner + 1 + 1) [.closeBrace] = (inner + 1 : Nat) := by
          rw [depth_singleton, if_neg (by decide), if_pos rfl]
          omega
        exact onward (List.cons_ne_nil _ _) rfl (passes_char isBackslash shallower)
          (step_of_inner_close shown inner)
      · have level : depth (inner + 1) [char] = (inner + 1 : Nat) := by
          rw [depth_singleton, if_neg isOpen, if_neg isClose]
          omega
        exact onward (List.cons_ne_nil _ _) rfl (passes_char isBackslash level)
          (step_of_plain shown isBackslash isOpen isClose inner)

/-- A braced word is read up to the brace that closes it, or it is unterminated. -/
theorem read_cases (shown : source.Shows position rest) :
    (∃ index, FirstCloseAt 1 rest index ∧
      read source position = ⟨.ok (folded (rest.take index)), position + index + 1, []⟩) ∨
    ((∀ index, ¬ ClosesAt 1 rest index) ∧ ∃ unmatched : Nat, 1 ≤ unmatched ∧
      (unmatched : Int) = depth 1 rest ∧
      read source position = ⟨.error (.unterminatedBrace position unmatched), position, []⟩) := by
  rw [read_of_shows shown]
  cases collect_outcome shown.stands shown 0 with
  | @closed index pieces first contents closes =>
      refine Or.inl ⟨index, first, ?_⟩
      rw [map_apply, closes]
      show (⟨.ok pieces.flatten, _, []⟩ : Run Text) = _
      rw [contents]
  | @unclosed unmatched never positive counted fails =>
      refine Or.inr ⟨never, unmatched, positive, counted, ?_⟩
      rw [map_apply, fails]
      rfl

end Runs

end TclWords.Braced

namespace TclWords

/-- **Braced words end at the matching brace.** A word in braces can be read if and only if
an unescaped close brace brings the depth to zero. The first such brace ends the word, whose
value is its contents with continued lines folded and nothing else changed. If there is none,
the fault tells how many braces are open at the end, at least one. There is never a warning. -/
theorem braces_end_at_match {source : Source} {position : Nat} {rest : Text}
    (shown : source.Shows position rest) :
    ((∃ value, (Braced.read source position).result = .ok value) ↔
      ∃ index, Braced.ClosesAt 1 rest index) ∧
    (∀ index, Braced.FirstCloseAt 1 rest index →
      Braced.read source position =
        ⟨.ok (Braced.folded (rest.take index)), position + index + 1, []⟩) ∧
    ((¬ ∃ index, Braced.ClosesAt 1 rest index) →
      ∃ unmatched : Nat, 1 ≤ unmatched ∧ (unmatched : Int) = Braced.depth 1 rest ∧
        Braced.read source position =
          ⟨.error (.unterminatedBrace position unmatched), position, []⟩) := by
  rcases Braced.read_cases shown with
    ⟨index, first, run⟩ | ⟨never, unmatched, positive, counted, run⟩
  · refine ⟨?_, ?_, fun none => absurd ⟨index, first.1⟩ none⟩
    · rw [run]
      exact iff_of_true ⟨_, rfl⟩ ⟨index, first.1⟩
    · intro other firstOther
      rw [← first.unique firstOther]
      exact run
  · refine ⟨?_, fun index first => absurd first.1 (never index), fun _ => ?_⟩
    · rw [run]
      refine iff_of_false ?_ fun closes => closes.elim never
      rintro ⟨value, succeeds⟩
      cases succeeds
    · exact ⟨unmatched, positive, counted, run⟩

/-- A word with inner braces, an escaped brace and a continued line, read from the middle of a
stream. Behind it stands a brace that is not its own. -/
theorem braces_end_at_match_past_escapes :
    let text := Text.ofString "a \x7bb \x7bc\x7d \\\x7d \\\n \td\x7d e\x7d"
    (Source.stream text).Shows 3 (text.drop 3) ∧ Braced.FirstCloseAt 1 (text.drop 3) 14 ∧
      Braced.folded ((text.drop 3).take 14) = Text.ofString "b \x7bc\x7d \\\x7d  d" ∧
      Braced.read (.stream text) 3 =
        ⟨.ok (Braced.folded ((text.drop 3).take 14)), 18, []⟩ := by
  intro text
  have shown : (Source.stream text).Shows 3 (text.drop 3) := Source.shows_stream text 3
  have first : Braced.FirstCloseAt 1 (text.drop 3) 14 := by
    unfold Braced.FirstCloseAt
    decide +kernel
  have contents : Braced.folded ((text.drop 3).take 14) =
      Text.ofString "b \x7bc\x7d \\\x7d  d" := by decide +kernel
  exact ⟨shown, first, contents, (braces_end_at_match shown).2.1 14 first⟩

end TclWords
