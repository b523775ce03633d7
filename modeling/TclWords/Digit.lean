import TclWords.Blank
import TclWords.CodePoint.DecimalDigit

/-!
Digits and the numbers that they write.

A digit counts in a base when its value is below the base; letters continue the
ten decimal digits in either case. `Digit.number` is the positional value of a
run of digits, and `NumberLiteral.value?` reads a whole literal, with the liberties
that literals are usually given: surrounding blanks, a sign, a leading zero with the
letter of the base, single underscores between digits, and the spaces and decimal
digits of other scripts in place of the ASCII ones.
-/

namespace TclWords

/-- The value of a digit of any base up to thirty-six. -/
def CodePoint.digitValue? (char : CodePoint) : Option Nat :=
  if 48 ≤ char.value ∧ char.value ≤ 57 then some (char.value - 48)
  else if 65 ≤ char.value ∧ char.value ≤ 90 then some (char.value - 55)
  else if 97 ≤ char.value ∧ char.value ≤ 122 then some (char.value - 87)
  else none

namespace Digit

/-- The value of a digit of `base`. -/
def value? (base : Nat) (char : CodePoint) : Option Nat :=
  char.digitValue?.filter (· < base)

def isOctal (char : CodePoint) : Bool :=
  (value? 8 char).isSome

def isHexadecimal (char : CodePoint) : Bool :=
  (value? 16 char).isSome

/-- The number that the digits write in `base`. Characters that are no digits
count as zeros. -/
def number (base : Nat) (digits : Text) : Nat :=
  digits.foldl (fun high char => high * base + (value? base char).getD 0) 0

end Digit

/-- The bases in which literals are written. -/
inductive Radix where
  | octal
  | hexadecimal
deriving DecidableEq

namespace Radix

def base : Radix → Nat
  | .octal => 8
  | .hexadecimal => 16

/-- The letters that tell the base, behind a zero. -/
def letters : Radix → List CodePoint
  | .octal => [.ofChar 'o', .ofChar 'O']
  | .hexadecimal => [.ofChar 'x', .ofChar 'X']

end Radix

namespace NumberLiteral

/-- Continues a number after one of its digits. An underscore has to stand
between two digits. -/
def continued? (radix : Radix) (high : Nat) : Text → Option Nat
  | [] => some high
  | char :: rest =>
    if char = .ofChar '_' then
      match rest with
      | [] => none
      | next :: rest =>
        (Digit.value? radix.base next).bind fun low =>
          continued? radix (high * radix.base + low) rest
    else
      (Digit.value? radix.base char).bind fun low =>
        continued? radix (high * radix.base + low) rest

/-- A run of digits with single underscores between them. -/
def digits? (radix : Radix) : Text → Option Nat
  | [] => none
  | char :: rest => (Digit.value? radix.base char).bind fun low => continued? radix low rest

/-- The digits behind an optional zero and letter, which one underscore may follow. -/
def magnitude? (radix : Radix) : Text → Option Nat
  | zero :: letter :: rest =>
    if zero = .ofChar '0' ∧ letter ∈ radix.letters then
      match rest with
      | [] => none
      | next :: later =>
        if next = .ofChar '_' then digits? radix later else digits? radix rest
    else
      digits? radix (zero :: letter :: rest)
  | digits => digits? radix digits

/-- The magnitude behind an optional sign. -/
def signed? (radix : Radix) : Text → Option Int
  | [] => none
  | char :: rest =>
    if char = .ofChar '+' then (magnitude? radix rest).map Int.ofNat
    else if char = .ofChar '-' then
      (magnitude? radix rest).map fun magnitude => -Int.ofNat magnitude
    else (magnitude? radix (char :: rest)).map Int.ofNat

/-- The ASCII character that a space or a decimal digit of another script stands for. -/
def toAscii (char : CodePoint) : CodePoint :=
  if char.value < 128 then char
  else if char.isWideSpace then .space
  else
    match char.decimalDigit? with
    | some digit => .ofNat (48 + digit)
    | none => char

/-- The value of a literal, or nothing if the text is none. -/
def value? (radix : Radix) (literal : Text) : Option Int :=
  let unindented := (literal.map toAscii).dropWhile CodePoint.isBlank
  signed? radix (unindented.reverse.dropWhile CodePoint.isBlank).reverse

end NumberLiteral

end TclWords
