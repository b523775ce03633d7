import TclWords.CodePoint

/-!
The characters that separate words.

The blanks are the six ASCII white space characters. The white space outside of
ASCII, here called wide, is made of ordinary characters of a word.
-/

namespace TclWords

/-- Space, horizontal tab, newline, carriage return, form feed, vertical tab. -/
def blanks : List CodePoint :=
  [.space, .horizontalTab, .newline, .carriageReturn, .formFeed, .verticalTab]

/-- The blanks that a folded line continuation swallows. -/
def spacesAndTabs : List CodePoint :=
  [.space, .horizontalTab]

/-- Separates words. -/
def CodePoint.isBlank (char : CodePoint) : Bool :=
  blanks.contains char

theorem CodePoint.isAlphanumeric_of_isBlank {char : CodePoint} (blank : char.isBlank = true) :
    char.isAlphanumeric = false := by
  have symbols : ∀ blank ∈ blanks, blank.isAlphanumeric = false := by decide
  exact symbols char (List.contains_iff_mem.mp blank)

/-- White space outside of ASCII. -/
def CodePoint.isWideSpace (char : CodePoint) : Bool :=
  [0x85, 0xA0, 0x1680, 0x2028, 0x2029, 0x202F, 0x205F, 0x3000].contains char.value
    || (0x2000 ≤ char.value && char.value ≤ 0x200A)

/-- A text that is one single blank. The empty text is not, nor is a run of blanks. -/
def Text.isSingleBlank : Text → Bool
  | [char] => char.isBlank
  | _ => false

end TclWords
