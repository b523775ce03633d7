import TclWords.CodePoint

/-!
Encodings of the texts in files.

Decoding is strict. UTF-8 takes the shortest form of a scalar value only: the
admissible octets after each leading one leave no overlong form, no surrogate and
nothing above the last code point. Bytes that only lack their continuation are
told apart from bytes that no continuation can mend.
-/

namespace TclWords

/-- How the bytes behind a decoded text end. -/
inductive Ending where
  /-- All bytes were decoded. -/
  | complete
  /-- The bytes end inside a sequence that could still be completed. -/
  | truncated
  /-- A byte follows that cannot stand there. -/
  | malformed
deriving DecidableEq

/-- The text that could be decoded, and what stopped the decoding. -/
structure Decoded where
  text : Text
  ending : Ending
deriving DecidableEq

/-- A decoding with one more code point in front. -/
def Decoded.cons (char : CodePoint) (decoded : Decoded) : Decoded :=
  { decoded with text := char :: decoded.text }

namespace Utf8

/-- An unfinished sequence of octets. The next octet lies between `low` and `high`,
`later` further ones follow it, and `bits` is the number collected so far. -/
structure Unfinished where
  later : Nat
  bits : Nat
  low : Nat
  high : Nat

/-- The sequences of more than one octet, by their first. -/
def begin? (octet : Nat) : Option Unfinished :=
  if octet < 0xC2 then none
  else if octet < 0xE0 then some ⟨0, octet - 0xC0, 0x80, 0xBF⟩
  else if octet = 0xE0 then some ⟨1, 0, 0xA0, 0xBF⟩
  else if octet = 0xED then some ⟨1, 0xD, 0x80, 0x9F⟩
  else if octet < 0xF0 then some ⟨1, octet - 0xE0, 0x80, 0xBF⟩
  else if octet = 0xF0 then some ⟨2, 0, 0x90, 0xBF⟩
  else if octet < 0xF4 then some ⟨2, octet - 0xF0, 0x80, 0xBF⟩
  else if octet = 0xF4 then some ⟨2, 4, 0x80, 0x8F⟩
  else none

/-- Decodes the octets that follow an unfinished sequence, or a finished one. -/
def decodeAfter : Option Unfinished → List UInt8 → Decoded
  | none, [] => ⟨[], .complete⟩
  | some _, [] => ⟨[], .truncated⟩
  | none, octet :: rest =>
    if octet.toNat < 0x80 then
      (decodeAfter none rest).cons (.ofNat octet.toNat)
    else
      match begin? octet.toNat with
      | none => ⟨[], .malformed⟩
      | some unfinished => decodeAfter (some unfinished) rest
  | some unfinished, octet :: rest =>
    if unfinished.low ≤ octet.toNat ∧ octet.toNat ≤ unfinished.high then
      let bits := unfinished.bits * 64 + (octet.toNat - 0x80)
      match unfinished.later with
      | 0 => (decodeAfter none rest).cons (.ofNat bits)
      | later + 1 => decodeAfter (some ⟨later, bits, 0x80, 0xBF⟩) rest
    else ⟨[], .malformed⟩

def decode (octets : List UInt8) : Decoded :=
  decodeAfter none octets

end Utf8

namespace Latin1

/-- Every byte is the code point of its number. -/
def decode (octets : List UInt8) : Decoded :=
  ⟨octets.map fun octet => .ofNat octet.toNat, .complete⟩

end Latin1

namespace Ascii

/-- Bytes from 128 on have no meaning. -/
def decode : List UInt8 → Decoded
  | [] => ⟨[], .complete⟩
  | octet :: rest =>
    if octet.toNat < 0x80 then (decode rest).cons (.ofNat octet.toNat)
    else ⟨[], .malformed⟩

end Ascii

inductive Encoding where
  | utf8
  | latin1
  | ascii
deriving DecidableEq

namespace Encoding

/-- The names under which the encodings are known. -/
def ofName? (name : Text) : Option Encoding :=
  if name = Text.ofString "utf-8" then some .utf8
  else if name = Text.ofString "latin-1" then some .latin1
  else if name = Text.ofString "ascii" then some .ascii
  else none

def decode : Encoding → List UInt8 → Decoded
  | .utf8 => Utf8.decode
  | .latin1 => Latin1.decode
  | .ascii => Ascii.decode

end Encoding

end TclWords
