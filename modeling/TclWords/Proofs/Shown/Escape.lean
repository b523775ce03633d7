import TclWords.Escape
import TclWords.Proofs.Shown

/-!
Backslash sequences on what a source shows.

Owns: the value of a literal made of digits only, so that no number in a sequence is
ever refused, and what `Escape.read` gives for a folded line end, for a sequence of one
character and at the end of the input.
-/

namespace TclWords

/-! ### Literals of digits -/

theorem Digit.isOctal_iff {char : CodePoint} :
    Digit.isOctal char = true ↔ 48 ≤ char.value ∧ char.value ≤ 55 := by
  unfold Digit.isOctal Digit.value? CodePoint.digitValue?
  split
  · rw [Option.isSome_filter]
    simp only [Option.any_some, decide_eq_true_eq]
    omega
  split
  · rw [Option.isSome_filter]
    simp only [Option.any_some, decide_eq_true_eq]
    omega
  split
  · rw [Option.isSome_filter]
    simp only [Option.any_some, decide_eq_true_eq]
    omega
  · simp only [Option.filter_none, Option.isSome_none, Bool.false_eq_true, false_iff]
    omega

section Digits

variable {radix : Radix} {char : CodePoint}

/-- The character is a digit in this base. -/
def Radix.IsDigit (radix : Radix) (char : CodePoint) : Prop :=
  (Digit.value? radix.base char).isSome = true

namespace Radix.IsDigit

theorem value?_eq (digit : radix.IsDigit char) :
    Digit.value? radix.base char = some ((Digit.value? radix.base char).getD 0) := by
  obtain ⟨value, found⟩ := Option.isSome_iff_exists.mp digit
  rw [found, Option.getD_some]

theorem ne (digit : radix.IsDigit char) {other : CodePoint}
    (noDigit : (Digit.value? radix.base other).isSome = false) : char ≠ other := by
  rintro rfl
  rw [IsDigit, noDigit] at digit
  cases digit

theorem not_blank (digit : radix.IsDigit char) : char.isBlank = false := by
  rw [CodePoint.isBlank, List.contains_eq_mem, decide_eq_false_iff_not]
  intro member
  have noDigit : ∀ blank ∈ blanks, (Digit.value? radix.base blank).isSome = false := by
    cases radix <;> decide
  exact digit.ne (noDigit char member) rfl

theorem value_lt (digit : radix.IsDigit char) : char.value < 128 := by
  unfold IsDigit Digit.value? CodePoint.digitValue? at digit
  split at digit
  · omega
  split at digit
  · omega
  split at digit
  · omega
  · cases digit

end Radix.IsDigit

namespace NumberLiteral

variable {digits : Text}

private theorem continued?_of_digits (areDigits : ∀ digit ∈ digits, radix.IsDigit digit)
    (high : Nat) :
    continued? radix high digits =
      some (digits.foldl
        (fun high char => high * radix.base + (Digit.value? radix.base char).getD 0) high) := by
  induction digits generalizing high with
  | nil => rfl
  | cons digit digits inductionHypothesis =>
      have isDigit := areDigits digit List.mem_cons_self
      have notUnderscore : digit ≠ .ofChar '_' := isDigit.ne (by cases radix <;> decide)
      rw [continued?.eq_def]
      simp only
      rw [if_neg notUnderscore, isDigit.value?_eq, Option.bind_some, inductionHypothesis
        (fun other member => areDigits other (List.mem_cons_of_mem digit member))]
      rfl

private theorem digits?_of_digits (nonempty : digits ≠ [])
    (areDigits : ∀ digit ∈ digits, radix.IsDigit digit) :
    digits? radix digits = some (Digit.number radix.base digits) := by
  cases digits with
  | nil => contradiction
  | cons digit digits =>
      rw [digits?, (areDigits digit List.mem_cons_self).value?_eq, Option.bind_some,
        continued?_of_digits
          (fun other member => areDigits other (List.mem_cons_of_mem digit member))]
      simp only [Digit.number, List.foldl_cons, Nat.zero_mul, Nat.zero_add]

private theorem magnitude?_of_digits (nonempty : digits ≠ [])
    (areDigits : ∀ digit ∈ digits, radix.IsDigit digit) :
    magnitude? radix digits = some (Digit.number radix.base digits) := by
  rw [← digits?_of_digits nonempty areDigits]
  rcases digits with _ | ⟨zero, _ | ⟨letter, rest⟩⟩
  · rfl
  · rfl
  · -- The letter that would tell the base is no digit in it.
    have noDigits : ∀ other ∈ radix.letters, (Digit.value? radix.base other).isSome = false := by
      cases radix <;> decide
    have noLetter : letter ∉ radix.letters := fun member =>
      (areDigits letter (by simp)).ne (noDigits letter member) rfl
    unfold magnitude?
    simp only [noLetter, and_false, if_false]

private theorem signed?_of_digits (nonempty : digits ≠ [])
    (areDigits : ∀ digit ∈ digits, radix.IsDigit digit) :
    signed? radix digits = some (Digit.number radix.base digits : Int) := by
  cases digits with
  | nil => contradiction
  | cons digit digits =>
      have isDigit := areDigits digit List.mem_cons_self
      have notPlus : digit ≠ .ofChar '+' := isDigit.ne (by cases radix <;> decide)
      have notMinus : digit ≠ .ofChar '-' := isDigit.ne (by cases radix <;> decide)
      rw [signed?, if_neg notPlus, if_neg notMinus, magnitude?_of_digits nonempty areDigits]
      rfl

private theorem dropWhile_blank_of_digits
    (areDigits : ∀ digit ∈ digits, radix.IsDigit digit) :
    digits.dropWhile CodePoint.isBlank = digits := by
  cases digits with
  | nil => rfl
  | cons digit digits =>
      have notBlank := (areDigits digit List.mem_cons_self).not_blank
      rw [List.dropWhile_cons_of_neg (by rw [notBlank]; exact Bool.false_ne_true)]

private theorem toAscii_of_isDigit {char : CodePoint} (digit : radix.IsDigit char) :
    toAscii char = char := by
  rw [toAscii, if_pos digit.value_lt]

/-- Digits are a literal, and its value is theirs. -/
theorem value?_of_digits (nonempty : digits ≠ [])
    (areDigits : ∀ digit ∈ digits, radix.IsDigit digit) :
    value? radix digits = some (Digit.number radix.base digits : Int) := by
  have ascii : digits.map toAscii = digits := by
    rw [List.map_congr_left fun digit member => toAscii_of_isDigit (areDigits digit member),
      List.map_id']
  have backward : ∀ digit ∈ digits.reverse, radix.IsDigit digit := by
    intro digit member
    exact areDigits digit (List.mem_reverse.mp member)
  rw [value?, ascii, dropWhile_blank_of_digits areDigits, dropWhile_blank_of_digits backward,
    List.reverse_reverse]
  exact signed?_of_digits nonempty areDigits

end NumberLiteral

end Digits

namespace Escape

open TclWords.Reader

variable {source : Source} {position : Nat} {rest : Text}

/-- Digits are never refused. -/
theorem number_of_digits {radix : Radix} {digits : Text} (nonempty : digits ≠ [])
    (areDigits : ∀ digit ∈ digits, radix.IsDigit digit) (source : Source) (position : Nat) :
    number radix digits source position =
      ⟨.ok (Digit.number radix.base digits : Int), position, []⟩ := by
  rw [number, NumberLiteral.value?_of_digits nonempty areDigits]
  rfl

theorem octal_of_shows {first : CodePoint} (isDigit : Digit.isOctal first = true)
    (shown : source.Shows position rest) :
    octal [first] source position =
      ⟨.ok (.ofNat (Digit.number 8 (first :: (rest.take 2).takeWhile Digit.isOctal) % 256)),
        position + ((rest.take 2).takeWhile Digit.isOctal).length, []⟩ := by
  have areDigits : ∀ digit ∈ first :: (rest.take 2).takeWhile Digit.isOctal,
      Radix.octal.IsDigit digit := by
    intro digit member
    rcases List.mem_cons.mp member with same | later
    · rw [same]
      exact isDigit
    · exact List.all_eq_true.mp List.all_takeWhile digit later
  rw [octal, bind_of_ok (span_of_shows shown Digit.isOctal (some 2))]
  simp only [upTo, List.cons_append, List.nil_append]
  rw [bind_of_ok (number_of_digits (List.cons_ne_nil _ _) areDigits source _)]
  rfl

private theorem areDigits_of_takeWhile {text digits : Text}
    (taken : text.takeWhile Digit.isHexadecimal = digits) :
    ∀ digit ∈ digits, Radix.hexadecimal.IsDigit digit := by
  subst taken
  exact List.all_eq_true.mp List.all_takeWhile

theorem hexadecimal_of_shows (shown : source.Shows position rest) {digits : Text}
    (taken : rest.takeWhile Digit.isHexadecimal = digits) :
    hexadecimal source position =
      ⟨.ok (if digits.isEmpty then none
          else some (.ofNat (Digit.number 16 (digits.drop (digits.length - 2))))),
        position + digits.length, []⟩ := by
  have areDigits := areDigits_of_takeWhile taken
  rw [hexadecimal, bind_of_ok (span_of_shows shown Digit.isHexadecimal none), upTo, taken]
  rcases digits with _ | ⟨digit, digits⟩
  · rfl
  · have nonempty : (digit :: digits).drop ((digit :: digits).length - 2) ≠ [] := by
      rw [ne_eq, List.drop_eq_nil_iff, List.length_cons]
      omega
    have lastDigits : ∀ other ∈ (digit :: digits).drop ((digit :: digits).length - 2),
        Radix.hexadecimal.IsDigit other :=
      fun other member => areDigits other (List.mem_of_mem_drop member)
    simp only [List.isEmpty_cons, Bool.false_eq_true, if_false]
    rw [bind_of_ok (number_of_digits nonempty lastDigits source _)]
    rfl

theorem unicode_of_shows (shown : source.Shows position rest) {digits : Text}
    (taken : (rest.take 4).takeWhile Digit.isHexadecimal = digits) :
    unicode source position =
      ⟨.ok (if digits.isEmpty then none else some (.ofNat (Digit.number 16 digits))),
        position + digits.length, []⟩ := by
  have areDigits := areDigits_of_takeWhile taken
  rw [unicode, bind_of_ok (span_of_shows shown Digit.isHexadecimal (some 4)), upTo, taken]
  rcases digits with _ | ⟨digit, digits⟩
  · rfl
  · simp only [List.isEmpty_cons, Bool.false_eq_true, if_false]
    rw [bind_of_ok (number_of_digits (List.cons_ne_nil _ _) areDigits source _)]
    rfl

/-! ### Sequences by their first character -/

theorem read_of_cons {char : CodePoint} (shown : source.Shows position (char :: rest))
    (strict : Bool) :
    read strict source position = readAfter strict position char source (position + 1) := by
  rw [read, position_bind_of_shows shown, bind_of_ok (readOne_of_cons shown)]
  rfl

theorem read_of_nil (shown : source.Shows position []) (strict : Bool) :
    read strict source position =
      if strict then ⟨.error (.danglingBackslash position), position, []⟩
      else ⟨.ok .backslash, position, [.keptBackslash position]⟩ := by
  rw [read, position_bind_of_shows shown, bind_of_ok (readOne_of_nil shown)]
  cases strict <;> rfl

theorem read_of_control {char control : CodePoint} (shown : source.Shows position (char :: rest))
    (strict : Bool) (isControl : control? char = some control) :
    read strict source position = ⟨.ok control, position + 1, []⟩ := by
  rw [read_of_cons shown, readAfter, isControl]
  rfl

/-- A line end is folded together with the spaces and tabs behind it. -/
theorem read_of_newline (shown : source.Shows position (.newline :: rest)) (strict : Bool) :
    read strict source position =
      ⟨.ok .space, position + 1 + (rest.takeWhile spacesAndTabs.contains).length, []⟩ := by
  have noControl : control? .newline = none := by decide
  rw [read_of_cons shown, readAfter, noControl]
  simp only [if_true]
  rw [spaceAndTabSpan, bind_of_ok (span_of_shows shown.tail spacesAndTabs.contains none)]
  rfl

private theorem control?_of_symbol {char : CodePoint} (symbol : char.isAlphanumeric = false) :
    control? char = none := by
  have letters : ∀ entry ∈ controls, (CodePoint.ofChar entry.1).isAlphanumeric = true := by
    decide
  rw [control?, Option.map_eq_none_iff, List.find?_eq_none]
  intro entry member found
  rw [eq_of_beq found, letters entry member] at symbol
  cases symbol

/-- What is no letter, no digit and no line end stands for itself, however strict the
reader is. -/
theorem read_of_symbol {char : CodePoint} (shown : source.Shows position (char :: rest))
    (strict : Bool) (symbol : char.isAlphanumeric = false) (notNewline : char ≠ .newline) :
    read strict source position = ⟨.ok char, position + 1, []⟩ := by
  have notOctal : ¬ Digit.isOctal char = true := by
    rw [Digit.isOctal_iff]
    intro range
    simp [CodePoint.isAlphanumeric] at symbol
    omega
  have notX : char ≠ .ofChar 'x' := by
    intro same
    rw [same] at symbol
    exact absurd symbol (by decide)
  have notU : char ≠ .ofChar 'u' := by
    intro same
    rw [same] at symbol
    exact absurd symbol (by decide)
  rw [read_of_cons shown, readAfter, control?_of_symbol symbol]
  simp only [notNewline, notOctal, notX, notU, symbol, if_false, Bool.and_false,
    Bool.false_eq_true]
  split
  · next isBackslash =>
      rw [isBackslash]
      rfl
  · rfl

end Escape

end TclWords
