import TclWords.Proofs.Shown.Escape
import TclWords.Proofs.Unescaped

/-!
Whole backslash sequences on what a source shows.

Owns: which characters belong to a sequence and what it stands for, by its first character
and what is shown behind that; and that `Escape.read` takes exactly these, or refuses a
letter or digit without a meaning. Nothing behind this module opens `Escape.read`.
-/

namespace TclWords.Escape

open TclWords.Reader

/-- The letters and digits that begin a sequence of their own. -/
def meaningful : Text :=
  Text.ofString "abfnrtvxu01234567"

/-- A letter or digit that begins no sequence. -/
def Meaningless (char : CodePoint) : Prop :=
  char.isAlphanumeric = true ∧ char ∉ meaningful

instance (char : CodePoint) : Decidable (Meaningless char) :=
  inferInstanceAs (Decidable (_ ∧ _))

/-- Which characters may follow the first one of a sequence, and how many if that is
limited. -/
def followers (char : CodePoint) : (CodePoint → Bool) × Option Nat :=
  if char = .newline then (spacesAndTabs.contains, none)
  else if Digit.isOctal char then (Digit.isOctal, some 2)
  else if char = .ofChar 'x' then (Digit.isHexadecimal, none)
  else if char = .ofChar 'u' then (Digit.isHexadecimal, some 4)
  else (fun _ => false, none)

/-- What a sequence takes of the text behind its first character. -/
def further (char : CodePoint) (rest : Text) : Text :=
  (upTo (followers char).2 rest).takeWhile (followers char).1

/-- The character that a sequence stands for. -/
def decoded (char : CodePoint) (taken : Text) : CodePoint :=
  match control? char with
  | some control => control
  | none =>
    if char = .newline then .space
    else if Digit.isOctal char then .ofNat (Digit.number 8 (char :: taken) % 256)
    else if taken.isEmpty then char
    else if char = .ofChar 'x' then
      .ofNat (Digit.number 16 (taken.drop (taken.length - 2)))
    else .ofNat (Digit.number 16 taken)

/-! ### Letters and digits -/

private theorem mem_meaningful_of_value {char : CodePoint}
    (member : char.value ∈ meaningful.map CodePoint.value) : char ∈ meaningful := by
  obtain ⟨other, found, same⟩ := List.mem_map.mp member
  rwa [CodePoint.ext_value same] at found

theorem letter_of_control {char control : CodePoint} (isControl : control? char = some control) :
    ∃ entry ∈ controls, char = .ofChar entry.1 := by
  rw [control?, Option.map_eq_some_iff] at isControl
  rcases isControl with ⟨entry, found, _⟩
  have same : (char == CodePoint.ofChar entry.1) = true := by
    simpa using List.find?_some found
  exact ⟨entry, List.mem_of_find?_eq_some found, eq_of_beq same⟩

/-- The letters and digits that begin a sequence, by the classes that are told apart. -/
theorem mem_meaningful_iff {char : CodePoint} :
    char ∈ meaningful ↔ (∃ control, control? char = some control) ∨
      Digit.isOctal char = true ∨ char = .ofChar 'x' ∨ char = .ofChar 'u' := by
  constructor
  · have classes : ∀ char ∈ meaningful, (control? char).isSome = true ∨
        Digit.isOctal char = true ∨ char = .ofChar 'x' ∨ char = .ofChar 'u' := by decide
    simpa only [Option.isSome_iff_exists] using classes char
  · have values : meaningful.map CodePoint.value =
        [97, 98, 102, 110, 114, 116, 118, 120, 117, 48, 49, 50, 51, 52, 53, 54, 55] := by decide
    have letters : ∀ entry ∈ controls, CodePoint.ofChar entry.1 ∈ meaningful := by decide
    rintro (⟨control, isControl⟩ | octal | rfl | rfl)
    · obtain ⟨entry, member, same⟩ := letter_of_control isControl
      exact same ▸ letters entry member
    · rw [Digit.isOctal_iff] at octal
      refine mem_meaningful_of_value ?_
      rw [values]
      simp only [List.mem_cons, List.not_mem_nil, or_false]
      omega
    · decide
    · decide

theorem followers_of_control {char control : CodePoint}
    (isControl : control? char = some control) : followers char = (fun _ => false, none) := by
  have letters : ∀ entry ∈ controls, CodePoint.ofChar entry.1 ≠ .newline ∧
      ¬ Digit.isOctal (.ofChar entry.1) = true ∧ CodePoint.ofChar entry.1 ≠ .ofChar 'x' ∧
        CodePoint.ofChar entry.1 ≠ .ofChar 'u' := by decide
  rcases letter_of_control isControl with ⟨entry, member, same⟩
  rcases letters entry member with ⟨notNewline, notOctal, notX, notU⟩
  rw [followers, same, if_neg notNewline, if_neg notOctal, if_neg notX, if_neg notU]

theorem followers_of_octal {char : CodePoint} (isDigit : Digit.isOctal char = true) :
    followers char = (Digit.isOctal, some 2) := by
  have notNewline : char ≠ .newline := by
    rintro rfl
    exact absurd isDigit (by decide)
  rw [followers, if_neg notNewline, if_pos isDigit]

theorem followers_of_unlisted {char : CodePoint} (unlisted : char ∉ meaningful)
    (notNewline : char ≠ .newline) : followers char = (fun _ => false, none) := by
  simp only [mem_meaningful_iff, not_or] at unlisted
  obtain ⟨_, notOctal, notX, notU⟩ := unlisted
  rw [followers, if_neg notNewline, if_neg notOctal, if_neg notX, if_neg notU]

theorem control?_of_unlisted {char : CodePoint} (unlisted : char ∉ meaningful) :
    control? char = none :=
  Option.eq_none_iff_forall_ne_some.mpr fun control isControl =>
    unlisted (mem_meaningful_iff.mpr (Or.inl ⟨control, isControl⟩))

/-! ### What follows -/

/-- A sequence goes on with letters, digits, spaces and tabs only. -/
theorem followers_cases {char other : CodePoint} (follows : (followers char).1 other = true) :
    other.isAlphanumeric = true ∨ other ∈ spacesAndTabs := by
  have hexadecimal : ∀ char, Digit.isHexadecimal char = true → char.isAlphanumeric = true := by
    intro char isDigit
    unfold Digit.isHexadecimal Digit.value? CodePoint.digitValue? at isDigit
    simp only [CodePoint.isAlphanumeric, Bool.or_eq_true, Bool.and_eq_true, decide_eq_true_eq]
    split at isDigit
    · omega
    split at isDigit
    · omega
    split at isDigit
    · omega
    · cases isDigit
  unfold followers at follows
  split at follows
  · right
    exact List.contains_iff_mem.mp follows
  left
  split at follows
  · rw [Digit.isOctal_iff] at follows
    simp only [CodePoint.isAlphanumeric, Bool.or_eq_true, Bool.and_eq_true, decide_eq_true_eq]
    omega
  split at follows
  · exact hexadecimal other follows
  split at follows
  · exact hexadecimal other follows
  · cases follows

theorem swallowed_of_follows {char other : CodePoint}
    (follows : (followers char).1 other = true) (symbol : other.isAlphanumeric = false) :
    other ∈ spacesAndTabs := by
  rcases followers_cases follows with alphanumeric | swallowed
  · rw [symbol] at alphanumeric
    cases alphanumeric
  · exact swallowed

theorem further_isPrefix (char : CodePoint) (rest : Text) : further char rest <+: rest := by
  have within : upTo (followers char).2 rest <+: rest := by
    cases (followers char).2 with
    | none => exact List.prefix_rfl
    | some count => exact List.take_prefix count rest
  exact (List.takeWhile_prefix _).trans within

theorem notMem_further {char other : CodePoint} (symbol : other.isAlphanumeric = false)
    (notSwallowed : other ∉ spacesAndTabs) (rest : Text) : other ∉ further char rest := by
  intro member
  exact notSwallowed (swallowed_of_follows (List.all_eq_true.mp List.all_takeWhile other member)
    symbol)

private theorem takeWhile_append_of_refused {accepts : CodePoint → Bool} {more : Text}
    (refused : ∀ char ∈ more.head?, accepts char = false) (rest : Text) :
    (rest ++ more).takeWhile accepts = rest.takeWhile accepts := by
  induction rest with
  | nil =>
      rcases more with _ | ⟨char, more⟩
      · rfl
      · have stops := Bool.eq_false_iff.mp (refused char rfl)
        rw [List.nil_append, List.takeWhile_cons_of_neg stops, List.takeWhile_nil]
  | cons char rest inductionHypothesis =>
      rw [List.cons_append, List.takeWhile_cons, List.takeWhile_cons, inductionHypothesis]

private theorem takeWhile_upTo_append {accepts : CodePoint → Bool} {separator : CodePoint}
    (refused : accepts separator = false) (limit : Option Nat) (rest more : Text) :
    (upTo limit (rest ++ separator :: more)).takeWhile accepts =
      (upTo limit rest).takeWhile accepts := by
  cases limit with
  | none =>
      apply takeWhile_append_of_refused
      intro char member
      cases member
      exact refused
  | some count =>
      rw [upTo, upTo, List.take_append]
      apply takeWhile_append_of_refused
      intro char member
      rw [List.head?_take] at member
      split at member
      · cases member
      · cases member
        exact refused

/-- No sequence reaches over a line end behind its first character. -/
theorem further_append_newline (char : CodePoint) (rest more : Text) :
    further char (rest ++ .newline :: more) = further char rest := by
  apply takeWhile_upTo_append
  apply Bool.eq_false_iff.mpr
  intro follows
  exact absurd (followers_cases follows) (by decide)

/-- A sequence escapes nothing behind it. -/
theorem not_escapes_sequence (char : CodePoint) (rest : Text) :
    ¬ Text.Escapes (.backslash :: char :: further char rest) :=
  Text.not_escapes_append (Text.not_escapes_pair char)
    (Text.not_escapes_of_notMem (notMem_further (by decide) (by decide) rest))

/-! ### Reading a sequence -/

section Runs

variable {source : Source} {position start : Nat} {char : CodePoint} {rest : Text}

/-- The classes of the first character, in the order in which they are told apart. -/
private theorem readAfter_of_shows {strict : Bool} (shown : source.Shows position rest)
    (meant : ¬ (strict = true ∧ Meaningless char)) :
    readAfter strict start char source position =
      ⟨.ok (decoded char (further char rest)), position + (further char rest).length, []⟩ := by
  rcases isControl : control? char with _ | control
  · by_cases isNewline : char = .newline
    · have followed : followers char = (spacesAndTabs.contains, none) := if_pos isNewline
      rw [readAfter, decoded, further, followed, isControl]
      simp only [if_pos isNewline]
      rw [spaceAndTabSpan, bind_of_ok (span_of_shows shown spacesAndTabs.contains none)]
      rfl
    by_cases octalDigit : Digit.isOctal char = true
    · have notBackslash : char ≠ .backslash := by
        intro isBackslash
        rw [isBackslash] at octalDigit
        exact absurd octalDigit (by decide)
      rw [readAfter, decoded, further, followers_of_octal octalDigit, isControl]
      simp only [if_neg isNewline, if_neg notBackslash, if_pos octalDigit]
      exact octal_of_shows octalDigit shown
    by_cases isX : char = .ofChar 'x'
    · subst isX
      have followed : followers (.ofChar 'x') = (Digit.isHexadecimal, none) := rfl
      rw [further, followed]
      generalize taken : (upTo none rest).takeWhile Digit.isHexadecimal = digits
      show (hexadecimal >>= fun char? => pure (char?.getD (.ofChar 'x'))) source position = _
      rw [bind_of_ok (hexadecimal_of_shows shown taken)]
      cases digits <;> rfl
    by_cases isU : char = .ofChar 'u'
    · subst isU
      have followed : followers (.ofChar 'u') = (Digit.isHexadecimal, some 4) := rfl
      rw [further, followed]
      generalize taken : (upTo (some 4) rest).takeWhile Digit.isHexadecimal = digits
      show (unicode >>= fun char? => pure (char?.getD (.ofChar 'u'))) source position = _
      rw [bind_of_ok (unicode_of_shows shown taken)]
      cases digits <;> rfl
    · have unlisted : char ∉ meaningful := by
        simp [mem_meaningful_iff, isControl, octalDigit, isX, isU]
      have nothing : further char rest = [] := by
        rw [further, followers_of_unlisted unlisted isNewline]
        cases rest <;> rfl
      have accepted : ¬ (strict && char.isAlphanumeric) = true := by
        rw [Bool.and_eq_true]
        exact fun refused => meant ⟨refused.1, refused.2, unlisted⟩
      rw [readAfter, decoded, nothing, isControl]
      simp only [if_neg isNewline, if_neg octalDigit, if_neg isX, if_neg isU, if_neg accepted]
      by_cases isBackslash : char = .backslash
      · rw [if_pos isBackslash, isBackslash]
        rfl
      · rw [if_neg isBackslash]
        rfl
  · have nothing : further char rest = [] := by
      rw [further, followers_of_control isControl]
      cases rest <;> rfl
    rw [readAfter, decoded, isControl, nothing]
    rfl

/-- A sequence with a meaning is read in the same way however strict the reader is, and a
lenient reader takes what has none for itself. -/
theorem read_of_sequence {strict : Bool} (shown : source.Shows position (char :: rest))
    (meant : ¬ (strict = true ∧ Meaningless char)) :
    read strict source position =
      ⟨.ok (decoded char (further char rest)), position + 1 + (further char rest).length, []⟩ := by
  rw [read_of_cons shown]
  exact readAfter_of_shows shown.tail meant

/-- Strictly, a letter or digit without a meaning is refused. -/
theorem read_of_meaningless (shown : source.Shows position (char :: rest))
    (meaningless : Meaningless char) :
    read true source position = ⟨.error (.unknownEscape char position), position, []⟩ := by
  have ne_of_symbol : ∀ symbol : CodePoint, symbol.isAlphanumeric = false → char ≠ symbol := by
    intro symbol notAlphanumeric same
    rw [← same, meaningless.1] at notAlphanumeric
    cases notAlphanumeric
  obtain ⟨_, notOctal, notX, notU⟩ : (¬ ∃ control, control? char = some control) ∧
      ¬ Digit.isOctal char = true ∧ char ≠ .ofChar 'x' ∧ char ≠ .ofChar 'u' := by
    simpa only [mem_meaningful_iff, not_or] using meaningless.2
  rw [read_of_cons shown, readAfter, control?_of_unlisted meaningless.2]
  simp only [if_neg (ne_of_symbol .newline (by decide)),
    if_neg (ne_of_symbol .backslash (by decide)), if_neg notOctal, if_neg notX, if_neg notU,
    meaningless.1, Bool.and_self, if_true]
  exact failAt_of_shows shown _ _

end Runs

end TclWords.Escape
