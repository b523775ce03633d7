import TclWords.Digit
import TclWords.Text.Quotation

/-!
What can go wrong while words are read, and what is only worth a warning.

A fault is a cause with the positions that matter to it; `Fault.message` is its
one wording. `Fault.IsReadFault` singles out the faults of the words themselves,
which wind a reader back to where the failing word started.
-/

namespace TclWords

inductive Fault where
  /-- The input ends inside a quoted word; `start` follows the opening quote. -/
  | unterminatedQuote (start : Nat)
  /-- The input ends inside a braced word with `openBraces` braces unmatched;
  `start` follows the opening brace. -/
  | unterminatedBrace (start openBraces : Nat)
  /-- The input ends after a backslash. -/
  | danglingBackslash (position : Nat)
  /-- A backslash before a letter or digit that has no meaning there. -/
  | unknownEscape (char : CodePoint) (position : Nat)
  /-- The source yields bytes instead of characters. -/
  | binarySource
  /-- The position sought lies outside of the text. -/
  | outsideText (target : Int) (length : Nat)
  /-- The position sought in a stream is negative. -/
  | negativeSeek (target : Int)
  /-- The position sought in a binary stream is negative. -/
  | negativeByteSeek (target : Int)
  /-- The characters taken for a number in this base are none. -/
  | badNumber (radix : Radix) (literal : Text)
  /-- Words cannot be read from a value of this type. -/
  | notASource (typeName : Text)
  /-- The bytes of a file are no text in its encoding. -/
  | undecodable
  /-- No encoding has this name. -/
  | unknownEncoding (name : Text)
  | missingFile
  | closedFile
deriving DecidableEq

/-- The faults of the words read, as opposed to those of the source and of the
calls made on it. -/
def Fault.IsReadFault : Fault → Prop
  | .unterminatedQuote _ => True
  | .unterminatedBrace _ _ => True
  | .danglingBackslash _ => True
  | .unknownEscape _ _ => True
  | .binarySource => True
  | _ => False

instance (fault : Fault) : Decidable fault.IsReadFault := by
  unfold Fault.IsReadFault
  cases fault <;> infer_instance

/-- A backslash at the end of the input was read as itself. -/
inductive Warning where
  | keptBackslash (position : Nat)
deriving DecidableEq

/-- How much of a literal a message shows, its quotation marks included. -/
def shownLiteralLength : Nat := 200

/-- The wording of a fault. -/
def Fault.message : Fault → Text
  | .unterminatedQuote start =>
    Text.ofString s!"Reached end of input while reading quoted word starting at {start}"
  | .unterminatedBrace start openBraces =>
    Text.ofString (s!"Reached end of input while reading braced word starting at {start}"
      ++ s!" with {openBraces} unmatched open brace(s)")
  | .danglingBackslash position =>
    Text.ofString s!"Backslash at end of input at {position}"
  | .unknownEscape char position =>
    Text.ofString "Unknown escape sequence "
      ++ .backslash :: char :: Text.ofString s!" at {position}"
  | .binarySource => Text.ofString "Tcl data must be read from a text stream!"
  | .outsideText target length =>
    Text.ofString s!"Cursor position {target} is outside of text of length {length}"
  | .negativeSeek target => Text.ofString s!"Negative seek position {target}"
  | .negativeByteSeek target => Text.ofString s!"negative seek value {target}"
  | .badNumber radix literal =>
    Text.ofString s!"invalid literal for int() with base {radix.base}: "
      ++ literal.inQuotationMarks.take shownLiteralLength
  | .notASource typeName =>
    Text.ofString "Expected a cursor or a seekable text stream, got " ++ typeName
  | .undecodable => Text.ofString "The bytes are no text in the encoding of the file"
  | .unknownEncoding name => Text.ofString "unknown encoding: " ++ name
  | .missingFile => Text.ofString "No such file or directory"
  | .closedFile => Text.ofString "I/O operation on closed file."

/-- The wording of a warning. -/
def Warning.message : Warning → Text
  | .keptBackslash position =>
    Text.ofString s!"Backslash at end of input at {position} is kept as is"

end TclWords
