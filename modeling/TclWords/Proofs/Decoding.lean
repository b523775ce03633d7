import Mathlib.Data.List.DropRight
import Mathlib.Data.Nat.Digits.Defs
import TclWords.Proofs.Shown.Sequence

/-!
What backslash sequences stand for.

Owns: the table of sequences, by which each first character has its one row; and that
`Escape.read` follows the table on every text, with runs of digits that are as long as they can
be and numbers that are those of the whole runs.
-/

namespace TclWords

open TclWords.Reader

/-! ### Longest runs -/

/-- A run of accepted characters at the front of the text, within the limit if there is one. -/
structure RunOf (accepts : CodePoint → Bool) (limit : Option Nat) (text run : Text) : Prop where
  atFront : run <+: text
  accepted : ∀ char ∈ run, accepts char = true
  within : ∀ count ∈ limit, run.length ≤ count

/-- The longest such run. -/
structure LongestRunOf (accepts : CodePoint → Bool) (limit : Option Nat) (text run : Text) : Prop
    extends RunOf accepts limit text run where
  longest : ∀ other, RunOf accepts limit text other → other.length ≤ run.length

section Runs

variable {accepts : CodePoint → Bool} {limit : Option Nat} {text run : Text}

theorem longestRunOf_takeWhile (accepts : CodePoint → Bool) (limit : Option Nat) (text : Text) :
    LongestRunOf accepts limit text ((upTo limit text).takeWhile accepts) where
  atFront := by
    refine (List.takeWhile_prefix accepts).trans ?_
    cases limit with
    | none => exact List.prefix_rfl
    | some count => exact List.take_prefix count text
  accepted := List.all_eq_true.mp List.all_takeWhile
  within := by
    rintro count rfl
    exact Nat.le_trans (List.takeWhile_prefix accepts).length_le (List.length_take_le count text)
  longest := by
    intro other otherRun
    have inLimit : other <+: upTo limit text := by
      cases limit with
      | none => exact otherRun.atFront
      | some count => exact List.prefix_take_iff.mpr ⟨otherRun.atFront, otherRun.within count rfl⟩
    obtain ⟨more, same⟩ := inLimit
    rw [← same, List.takeWhile_append_of_pos otherRun.accepted, List.length_append]
    exact Nat.le_add_right _ _

/-- There is only one longest run. -/
theorem LongestRunOf.eq_takeWhile (longest : LongestRunOf accepts limit text run) :
    run = (upTo limit text).takeWhile accepts := by
  have taken := longestRunOf_takeWhile accepts limit text
  have sameLength := Nat.le_antisymm (taken.longest run longest.toRunOf)
    (longest.longest _ taken.toRunOf)
  exact (List.prefix_of_prefix_length_le longest.atFront taken.atFront
    (Nat.le_of_eq sameLength)).eq_of_length sameLength

end Runs

/-! ### Numbers -/

namespace Digit

variable {base : Nat}

/-- The number that digits write, in terms of their values from the last one on. -/
theorem number_eq_ofDigits (base : Nat) (digits : Text) :
    number base digits =
      Nat.ofDigits base (digits.reverse.map fun char => (value? base char).getD 0) := by
  induction digits using List.reverseRecOn with
  | nil => rfl
  | append_singleton digits last inductionHypothesis =>
      rw [List.reverse_append, List.reverse_singleton, List.singleton_append, List.map_cons,
        Nat.ofDigits_cons, ← inductionHypothesis, number, List.foldl_append, Nat.mul_comm base,
        Nat.add_comm]
      rfl

private theorem values_lt (positive : 0 < base) (digits : Text) :
    ∀ value ∈ digits.map fun char => (value? base char).getD 0, value < base := by
  intro value member
  obtain ⟨char, _, rfl⟩ := List.mem_map.mp member
  rcases isDigit : value? base char with _ | value
  · exact positive
  · exact of_decide_eq_true (Option.filter_eq_some_iff.mp isDigit).2

theorem number_lt (base_gt_one : 1 < base) (digits : Text) :
    number base digits < base ^ digits.length := by
  have bound := Nat.ofDigits_lt_base_pow_length base_gt_one
    (values_lt (Nat.zero_lt_of_lt base_gt_one) digits.reverse)
  rwa [← number_eq_ofDigits, List.length_map, List.length_reverse] at bound

/-- The last digits write the number of all of them, up to multiples of the power that they
do not reach. -/
theorem number_drop (positive : 0 < base) (digits : Text) (count : Nat) :
    number base (digits.drop (digits.length - count)) = number base digits % base ^ count := by
  have last : (digits.drop (digits.length - count)).reverse = digits.reverse.take count := by
    rw [← List.rtake, List.rtake_eq_reverse_take_reverse, List.reverse_reverse]
  rw [number_eq_ofDigits, number_eq_ofDigits, last, List.map_take,
    Nat.ofDigits_mod_pow_eq_ofDigits_take count positive _ (values_lt positive digits.reverse)]

end Digit

/-! ### The table -/

namespace Escape

/-- The table of backslash sequences: behind a backslash, `char` and what is `taken` of the
`rest` stand for the one code point. -/
inductive StandsFor (char : CodePoint) (rest : Text) : Text → CodePoint → Prop where
  | control {letter : Char} {code : Nat} {value : CodePoint}
      (listed : (letter, code) ∈
        [('a', 7), ('b', 8), ('f', 12), ('n', 10), ('r', 13), ('t', 9), ('v', 11)])
      (isLetter : char = .ofChar letter) (valued : value.value = code) :
      StandsFor char rest [] value
  | lineEnd {blanks : Text} (isNewline : char = .newline)
      (longest : LongestRunOf spacesAndTabs.contains none rest blanks) :
      StandsFor char rest blanks .space
  | octal {digits : Text} {value : CodePoint} (isDigit : Digit.isOctal char = true)
      (longest : LongestRunOf Digit.isOctal (some 3) (char :: rest) (char :: digits))
      (valued : value.value = Digit.number 8 (char :: digits) % 256) :
      StandsFor char rest digits value
  | hexadecimal {digits : Text} {value : CodePoint} (isX : char = .ofChar 'x')
      (longest : LongestRunOf Digit.isHexadecimal none rest digits) (nonempty : digits ≠ [])
      (valued : value.value = Digit.number 16 digits % 256) :
      StandsFor char rest digits value
  | unicode {digits : Text} {value : CodePoint} (isU : char = .ofChar 'u')
      (longest : LongestRunOf Digit.isHexadecimal (some 4) rest digits) (nonempty : digits ≠ [])
      (valued : value.value = Digit.number 16 digits) :
      StandsFor char rest digits value
  | noDigit (isLetter : char = .ofChar 'x' ∨ char = .ofChar 'u')
      (stops : ∀ next ∈ rest.head?, Digit.isHexadecimal next = false) :
      StandsFor char rest [] char
  | itself (unlisted : char ∉ meaningful) (notNewline : char ≠ .newline) :
      StandsFor char rest [] char

variable {char : CodePoint} {rest taken : Text} {value : CodePoint}

/-! ### One row for each character -/

/-- A letter with a digit behind it has a longest run of digits, and without one has none. -/
private theorem digits_cases (limit : Option Nat) (positive : limit ≠ some 0) (rest : Text) :
    (∀ next ∈ rest.head?, Digit.isHexadecimal next = false) ∨
      ∃ digits, digits ≠ [] ∧ LongestRunOf Digit.isHexadecimal limit rest digits := by
  have longest := longestRunOf_takeWhile Digit.isHexadecimal limit rest
  rcases rest with _ | ⟨next, rest⟩
  · exact Or.inl (by simp)
  by_cases isDigit : Digit.isHexadecimal next = true
  · refine Or.inr ⟨_, List.ne_nil_of_length_pos ?_, longest⟩
    refine longest.longest [next] ⟨List.prefix_append [next] rest, by simpa using isDigit, ?_⟩
    rintro count rfl
    exact Nat.pos_of_ne_zero fun zero => positive (zero ▸ rfl)
  · exact Or.inl (by simpa using isDigit)

theorem exists_standsFor (char : CodePoint) (rest : Text) :
    ∃ taken value, StandsFor char rest taken value := by
  by_cases listed : char ∈ meaningful
  · rcases mem_meaningful_iff.mp listed with ⟨control, isControl⟩ | isDigit | isX | isU
    · have codes : ∀ entry ∈ controls, (CodePoint.ofNat entry.2).value = entry.2 := by decide
      obtain ⟨⟨letter, code⟩, member, isLetter⟩ := letter_of_control isControl
      exact ⟨[], _, .control member isLetter (codes (letter, code) member)⟩
    · have longest := longestRunOf_takeWhile Digit.isOctal (some 3) (char :: rest)
      rw [upTo, List.take_succ_cons, List.takeWhile_cons_of_pos isDigit] at longest
      exact ⟨_, _, .octal isDigit longest (CodePoint.value_ofNat (by omega))⟩
    · rcases digits_cases none (by decide) rest with stops | ⟨digits, nonempty, longest⟩
      · exact ⟨[], char, .noDigit (Or.inl isX) stops⟩
      · exact ⟨digits, _, .hexadecimal isX longest nonempty (CodePoint.value_ofNat (by omega))⟩
    · rcases digits_cases (some 4) (by decide) rest with stops | ⟨digits, nonempty, longest⟩
      · exact ⟨[], char, .noDigit (Or.inr isU) stops⟩
      · -- Four digits write no number beyond the code points.
        have bound := Digit.number_lt (by decide : 1 < 16) digits
        have atMost := Nat.pow_le_pow_right (by decide : 0 < 16) (longest.within 4 rfl)
        exact ⟨digits, _, .unicode isU longest nonempty (CodePoint.value_ofNat (by omega))⟩
  · by_cases isNewline : char = .newline
    · exact ⟨_, _, .lineEnd isNewline (longestRunOf_takeWhile spacesAndTabs.contains none rest)⟩
    · exact ⟨[], char, .itself listed isNewline⟩

/-! ### Reading by the table -/

private theorem eq_ofNat {number : Nat} (valued : value.value = number) :
    value = .ofNat number := by
  rw [← valued, CodePoint.ofNat_value]

private theorem further_eq {accepts : CodePoint → Bool} {limit : Option Nat}
    (followed : followers char = (accepts, limit))
    (longest : LongestRunOf accepts limit rest taken) : further char rest = taken := by
  rw [further, followed, longest.eq_takeWhile]

private theorem further_eq_nil {accepts : CodePoint → Bool} {limit : Option Nat}
    (followed : followers char = (accepts, limit))
    (stops : ∀ next ∈ rest.head?, accepts next = false) : further char rest = [] := by
  rw [further, followed]
  rcases limit with _ | _ | count <;> rcases rest with _ | ⟨next, rest⟩ <;> simp_all [upTo]

private theorem decoded_of_digits (isLetter : char = .ofChar 'x' ∨ char = .ofChar 'u')
    (nonempty : taken ≠ []) :
    decoded char taken = .ofNat (Digit.number 16
      (if char = .ofChar 'x' then taken.drop (taken.length - 2) else taken)) := by
  rcases taken with _ | ⟨digit, taken⟩
  · contradiction
  · rcases isLetter with rfl | rfl <;> rfl

/-- A row of the table is what a sequence takes and stands for. -/
theorem StandsFor.eq_decoded (row : StandsFor char rest taken value) :
    further char rest = taken ∧ decoded char taken = value := by
  cases row with
  | @control letter code _ listed isLetter valued =>
      have codes : ∀ entry ∈ controls,
          control? (.ofChar entry.1) = some (.ofNat entry.2) := by decide
      have isControl : control? char = some value := by
        rw [isLetter, eq_ofNat valued]
        exact codes (letter, code) listed
      refine ⟨further_eq_nil (followers_of_control isControl) fun _ _ => rfl, ?_⟩
      rw [decoded, isControl]
  | lineEnd isNewline longest =>
      subst isNewline
      exact ⟨further_eq rfl longest, rfl⟩
  | octal isDigit longest valued =>
      -- The run of the table begins with the first character, `further` begins behind it.
      have sameRun := longest.eq_takeWhile
      rw [upTo, List.take_succ_cons, List.takeWhile_cons_of_pos isDigit] at sameRun
      have noControl : control? char = none := by
        refine Option.eq_none_iff_forall_ne_some.mpr fun control isControl => ?_
        have letters : ∀ entry ∈ controls,
            Digit.isOctal (.ofChar entry.1) = false := by decide
        obtain ⟨entry, member, isLetter⟩ := letter_of_control isControl
        rw [isLetter, letters entry member] at isDigit
        cases isDigit
      have notNewline : char ≠ .newline := by
        rintro rfl
        exact absurd isDigit (by decide)
      refine ⟨?_, ?_⟩
      · rw [further, followers_of_octal isDigit]
        exact (List.cons.inj sameRun).2.symm
      · rw [decoded, noControl, eq_ofNat valued]
        simp only [if_neg notNewline, if_pos isDigit]
  | hexadecimal isX longest nonempty valued =>
      subst isX
      have lastTwo : Digit.number 16 (taken.drop (taken.length - 2)) =
          Digit.number 16 taken % 256 := Digit.number_drop (by decide) taken 2
      refine ⟨further_eq rfl longest, ?_⟩
      rw [decoded_of_digits (Or.inl rfl) nonempty, if_pos rfl, lastTwo, eq_ofNat valued]
  | unicode isU longest nonempty valued =>
      subst isU
      refine ⟨further_eq rfl longest, ?_⟩
      rw [decoded_of_digits (Or.inr rfl) nonempty, if_neg (by decide), eq_ofNat valued]
  | noDigit isLetter stops =>
      rcases isLetter with rfl | rfl
      · exact ⟨further_eq_nil rfl stops, rfl⟩
      · exact ⟨further_eq_nil rfl stops, rfl⟩
  | itself unlisted notNewline =>
      refine ⟨further_eq_nil (followers_of_unlisted unlisted notNewline) fun _ _ => rfl, ?_⟩
      have notOctal : ¬ Digit.isOctal char = true := fun isDigit =>
        unlisted (mem_meaningful_iff.mpr (Or.inr (Or.inl isDigit)))
      rw [decoded, control?_of_unlisted unlisted]
      simp only [if_neg notNewline, if_neg notOctal, List.isEmpty_nil, if_true]

end Escape

/-- **Sequences are decoded by the table.** Each first character has a row, and the row tells
which one code point a lenient reader gives and where it stops. A strict reader does the same,
except that it refuses a letter or digit that is not listed and stays. The digits taken for a
number are always one. -/
theorem sequences_follow_table {source : Source} {position : Nat} {char : CodePoint} {rest : Text}
    (shown : source.Shows position (char :: rest)) :
    (∃ taken value, Escape.StandsFor char rest taken value) ∧
    (∀ taken value, Escape.StandsFor char rest taken value →
      Escape.read false source position = ⟨.ok value, position + 1 + taken.length, []⟩ ∧
      Escape.read true source position =
        if Escape.Meaningless char then ⟨.error (.unknownEscape char position), position, []⟩
        else ⟨.ok value, position + 1 + taken.length, []⟩) ∧
    ∀ strict radix literal,
      (Escape.read strict source position).result ≠ .error (.badNumber radix literal) := by
  have lenient := Escape.read_of_sequence shown (fun refused => Bool.false_ne_true refused.1)
  have strictly : Escape.read true source position =
      if Escape.Meaningless char then ⟨.error (.unknownEscape char position), position, []⟩
      else Escape.read false source position := by
    split
    · next meaningless => exact Escape.read_of_meaningless shown meaningless
    · next meant =>
        rw [lenient, Escape.read_of_sequence shown fun refused => meant refused.2]
  refine ⟨Escape.exists_standsFor char rest, fun taken value row => ?_,
    fun strict radix literal => ?_⟩
  · obtain ⟨taken, decodes⟩ := row.eq_decoded
    rw [taken, decodes] at lenient
    rw [strictly, lenient]
    exact ⟨rfl, rfl⟩
  · intro failed
    cases strict with
    | false =>
        rw [lenient] at failed
        cases failed
    | true =>
        rw [strictly, lenient] at failed
        split at failed <;> cases failed

/-- A number of five digits, of which the first three do not count. -/
theorem sequences_follow_table_past_many_digits :
    let text := Text.ofString "\\x00141g"
    Escape.StandsFor (.ofChar 'x') (text.drop 2) (Text.ofString "00141") (.ofChar 'A') ∧
      Escape.read false (.stream text) 1 = ⟨.ok (.ofChar 'A'), 7, []⟩ ∧
      Escape.read true (.stream text) 1 = ⟨.ok (.ofChar 'A'), 7, []⟩ := by
  intro text
  have longest : LongestRunOf Digit.isHexadecimal none (text.drop 2) (Text.ofString "00141") :=
    longestRunOf_takeWhile Digit.isHexadecimal none (text.drop 2)
  have row : Escape.StandsFor (.ofChar 'x') (text.drop 2) (Text.ofString "00141") (.ofChar 'A') :=
    .hexadecimal rfl longest (by decide) (by decide)
  have shown : (Source.stream text).Shows 1 (.ofChar 'x' :: text.drop 2) :=
    Source.shows_stream text 1
  obtain ⟨_, decodes, _⟩ := sequences_follow_table shown
  obtain ⟨lenient, strictly⟩ := decodes _ _ row
  rw [if_neg (by decide)] at strictly
  exact ⟨row, lenient, strictly⟩

end TclWords
