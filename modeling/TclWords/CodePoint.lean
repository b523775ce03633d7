/-!
Code points and texts.

A text is any finite sequence of code points. Lone surrogates are code points
like every other, so a text need not be the contents of a `String`. Every
position and every length of this library counts code points.
-/

namespace TclWords

/-- A Unicode code point, a surrogate or not. -/
structure CodePoint where
  value : Nat
  value_lt : value < 0x110000
deriving DecidableEq

namespace CodePoint

/-- The code point of a number, which is taken modulo the count of code points. -/
def ofNat (number : Nat) : CodePoint :=
  ⟨number % 0x110000, Nat.mod_lt _ (by decide)⟩

theorem value_ofNat {number : Nat} (bounded : number < 0x110000) :
    (ofNat number).value = number :=
  Nat.mod_eq_of_lt bounded

theorem ext_value {left right : CodePoint} (equal : left.value = right.value) :
    left = right := by
  cases left
  cases right
  cases equal
  rfl

theorem ofNat_value (char : CodePoint) : ofNat char.value = char :=
  ext_value (value_ofNat char.value_lt)

/-- Every character is a code point. -/
def ofChar (char : Char) : CodePoint :=
  ofNat char.toNat

def backslash : CodePoint := ofChar '\\'

def doubleQuote : CodePoint := ofChar '"'

def openBrace : CodePoint := ofChar '{'

def closeBrace : CodePoint := ofChar '}'

def space : CodePoint := ofChar ' '

def horizontalTab : CodePoint := ofChar '\t'

def newline : CodePoint := ofChar '\n'

def carriageReturn : CodePoint := ofChar '\r'

def verticalTab : CodePoint := ofChar '\x0b'

def formFeed : CodePoint := ofChar '\x0c'

/-- ASCII letters and digits. -/
def isAlphanumeric (char : CodePoint) : Bool :=
  (48 ≤ char.value && char.value ≤ 57)
    || (65 ≤ char.value && char.value ≤ 90)
    || (97 ≤ char.value && char.value ≤ 122)

end CodePoint

/-- Any sequence of code points. -/
abbrev Text := List CodePoint

namespace Text

def ofString (contents : String) : Text :=
  contents.toList.map CodePoint.ofChar

/-- The part of a text from `start` up to `stop`. A negative `stop` counts from
the end of the text, and a `stop` before `start` gives nothing. -/
def slice (text : Text) (start : Nat) (stop : Int) : Text :=
  let fromFront := if stop < 0 then stop + text.length else stop
  (text.drop start).take (fromFront.toNat - start)

end Text

end TclWords
