import TclWords.CodePoint

/-!
The decimal digits of all scripts.

Every script that has decimal digits has ten of them in a row, the zero first.
-/

namespace TclWords

/-- The zeros of the decimal digits, in ascending order. -/
def decimalZeros : List Nat :=
  [0x30, 0x660, 0x6F0, 0x7C0, 0x966, 0x9E6, 0xA66, 0xAE6, 0xB66, 0xBE6, 0xC66, 0xCE6,
    0xD66, 0xDE6, 0xE50, 0xED0, 0xF20, 0x1040, 0x1090, 0x17E0, 0x1810, 0x1946, 0x19D0,
    0x1A80, 0x1A90, 0x1B50, 0x1BB0, 0x1C40, 0x1C50, 0xA620, 0xA8D0, 0xA900, 0xA9D0, 0xA9F0,
    0xAA50, 0xABF0, 0xFF10, 0x104A0, 0x10D30, 0x11066, 0x110F0, 0x11136, 0x111D0, 0x112F0,
    0x11450, 0x114D0, 0x11650, 0x116C0, 0x11730, 0x118E0, 0x11950, 0x11C50, 0x11D50,
    0x11DA0, 0x16A60, 0x16AC0, 0x16B50, 0x1D7CE, 0x1D7D8, 0x1D7E2, 0x1D7EC, 0x1D7F6,
    0x1E140, 0x1E2F0, 0x1E950, 0x1FBF0]

/-- The value of a decimal digit of any script. -/
def CodePoint.decimalDigit? (char : CodePoint) : Option Nat :=
  (decimalZeros.find? fun first => first ≤ char.value && char.value < first + 10).map
    fun first => char.value - first

private theorem decimalDigit_of_ascii : ∀ code : Fin 128,
    (CodePoint.ofNat code).decimalDigit? =
      if 48 ≤ code.val ∧ code.val ≤ 57 then some (code.val - 48) else none := by
  decide +kernel

/-- The only decimal digits of ASCII are the ten from zero to nine. -/
theorem CodePoint.decimalDigit?_of_lt {char : CodePoint} (inAscii : char.value < 128) :
    char.decimalDigit? =
      if 48 ≤ char.value ∧ char.value ≤ 57 then some (char.value - 48) else none := by
  have same : CodePoint.ofNat char.value = char :=
    CodePoint.ext_value (CodePoint.value_ofNat char.value_lt)
  have checked := decimalDigit_of_ascii ⟨char.value, inAscii⟩
  rw [same] at checked
  exact checked

end TclWords
