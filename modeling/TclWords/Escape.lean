import TclWords.Digit
import TclWords.Span

/-!
Backslash sequences.

A backslash together with what follows it stands for exactly one character. The
readers start behind the backslash and end behind the sequence. Strictness refuses
what has no meaning: a backslash at the end of the input, and a letter or digit
that begins no sequence.
-/

namespace TclWords.Escape

open TclWords.Reader

/-- The letters that stand for control characters. -/
def controls : List (Char × Nat) :=
  [('a', 7), ('b', 8), ('f', 12), ('n', 10), ('r', 13), ('t', 9), ('v', 11)]

/-- The control character that a letter stands for. -/
def control? (letter : CodePoint) : Option CodePoint :=
  (controls.find? fun entry => letter == .ofChar entry.1).map fun entry => .ofNat entry.2

/-- The number that characters which have been read write as a literal. -/
def number (radix : Radix) (literal : Text) : Reader Int :=
  match NumberLiteral.value? radix literal with
  | some value => pure value
  | none => fail (.badNumber radix literal)

/-- An octal number of which the first digits have been read and up to two more
follow. Its value is taken modulo 256. -/
def octal (first : Text) : Reader CodePoint := do
  let digits ← span Digit.isOctal (some 2)
  let value ← number .octal (first ++ digits)
  return .ofNat (value % 256).toNat

/-- A hexadecimal number of any length, of which the last two digits count, or
nothing if there is no digit. -/
def hexadecimal : Reader (Option CodePoint) := do
  let digits ← span Digit.isHexadecimal none
  if digits.isEmpty then return none
  else
    let value ← number .hexadecimal (digits.drop (digits.length - 2))
    return some (.ofNat value.toNat)

/-- A hexadecimal number of up to four digits, or nothing if there is no digit. -/
def unicode : Reader (Option CodePoint) := do
  let digits ← span Digit.isHexadecimal (some 4)
  if digits.isEmpty then return none
  else
    let value ← number .hexadecimal digits
    return some (.ofNat value.toNat)

/-- The rest of a sequence behind its first character `char`, which stands at
`start`. -/
def readAfter (strict : Bool) (start : Nat) (char : CodePoint) : Reader CodePoint :=
  match control? char with
  | some control => return control
  | none =>
    if char = .newline then do
      let _ ← spaceAndTabSpan
      return .space
    else if char = .backslash then return .backslash
    else if Digit.isOctal char then octal [char]
    else if char = .ofChar 'x' then do
      return (← hexadecimal).getD char
    else if char = .ofChar 'u' then do
      return (← unicode).getD char
    else if strict && char.isAlphanumeric then failAt start (.unknownEscape char start)
    else return char

/-- The character that a backslash sequence stands for. -/
def read (strict : Bool) : Reader CodePoint := do
  let start ← position
  match ← readOne with
  | none =>
    if strict then fail (.danglingBackslash start)
    else do
      warn (.keptBackslash start)
      return .backslash
  | some char => readAfter strict start char

theorem forward_number (radix : Radix) (literal : Text) : Forward (number radix literal) := by
  unfold number
  split
  · exact forward_pure _
  · exact forward_fail _

theorem forward_octal (first : Text) : Forward (octal first) :=
  (forward_span _ _).bind fun _ => (forward_number _ _).bind fun _ => forward_pure _

theorem forward_hexadecimal : Forward hexadecimal := by
  apply (forward_span _ _).bind
  intro digits
  split
  · exact forward_pure _
  · exact (forward_number _ _).bind fun _ => forward_pure _

theorem forward_unicode : Forward unicode := by
  apply (forward_span _ _).bind
  intro digits
  split
  · exact forward_pure _
  · exact (forward_number _ _).bind fun _ => forward_pure _

theorem forward_readAfter (strict : Bool) (start : Nat) (char : CodePoint) :
    Forward (readAfter strict start char) := by
  unfold readAfter
  split
  · exact forward_pure _
  · split
    · exact (forward_span _ _).bind fun _ => forward_pure _
    split
    · exact forward_pure _
    split
    · exact forward_octal _
    split
    · exact forward_hexadecimal.bind fun _ => forward_pure _
    split
    · exact forward_unicode.bind fun _ => forward_pure _
    split
    · exact forward_failAt _ _
    · exact forward_pure _

theorem forward_read (strict : Bool) : Forward (read strict) := by
  apply forward_position.bind
  intro start
  apply forward_readOne.bind
  intro char?
  cases char? with
  | none =>
      simp only
      split
      · exact forward_fail _
      · exact (forward_warn _).bind fun _ => forward_pure _
  | some char => exact forward_readAfter strict start char

end TclWords.Escape
