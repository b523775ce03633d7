import TclWords.CodePoint.Printable

/-!
Texts between quotation marks, as messages show them.

What is not printable is written as a backslash sequence, and so are the backslash
and the quotation mark.
-/

namespace TclWords.Text

/-- The lower case hexadecimal digit of a value below sixteen. -/
def hexadecimalDigit (value : Nat) : CodePoint :=
  .ofNat (if value < 10 then 48 + value else 87 + value)

/-- The last `width` hexadecimal digits of a number. -/
def hexadecimalDigits : Nat → Nat → Text
  | 0, _ => []
  | width + 1, number =>
    hexadecimalDigits width (number / 16) ++ [hexadecimalDigit (number % 16)]

/-- A code point by its number, in the shortest of the three forms that holds it. -/
def numbered (char : CodePoint) : Text :=
  if char.value < 0x100 then
    .backslash :: .ofChar 'x' :: hexadecimalDigits 2 char.value
  else if char.value < 0x10000 then
    .backslash :: .ofChar 'u' :: hexadecimalDigits 4 char.value
  else .backslash :: .ofChar 'U' :: hexadecimalDigits 8 char.value

/-- One character between two quotation marks. -/
def quotedChar (mark char : CodePoint) : Text :=
  if char = mark ∨ char = .backslash then [.backslash, char]
  else if char = .newline then [.backslash, .ofChar 'n']
  else if char = .carriageReturn then [.backslash, .ofChar 'r']
  else if char = .horizontalTab then [.backslash, .ofChar 't']
  else if char.isPrintable then [char]
  else numbered char

/-- A text between quotation marks: single ones, or double ones where that saves
an escape. -/
def inQuotationMarks (text : Text) : Text :=
  let mark : CodePoint :=
    if text.contains (.ofChar '\'') && !text.contains .doubleQuote then .doubleQuote
    else .ofChar '\''
  mark :: text.flatMap (quotedChar mark) ++ [mark]

end TclWords.Text
