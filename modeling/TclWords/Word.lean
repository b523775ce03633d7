import TclWords.CodePoint

/-!
Words and their kinds.
-/

namespace TclWords

/-- How a word is written. -/
inductive WordKind where
  | bare
  | quoted
  | braced
deriving DecidableEq

/-- The kind of the words that begin with a text. Only the delimiter by itself makes
a word quoted or braced. -/
def WordKind.ofOpening (opening : Text) : WordKind :=
  if opening = [.doubleQuote] then .quoted
  else if opening = [.openBrace] then .braced
  else .bare

theorem WordKind.ofOpening_eq_bare_iff {char : CodePoint} :
    ofOpening [char] = .bare ↔ char ≠ .doubleQuote ∧ char ≠ .openBrace := by
  unfold ofOpening
  split
  · simp_all
  split
  · simp_all
  · simp_all

/-- A word, its decoded value, and where it was found: `start` is the position of its
first character, a delimiter if it has one, and `stop` follows its last character. -/
structure Word where
  kind : WordKind
  value : Text
  start : Nat
  stop : Nat
deriving DecidableEq

end TclWords
