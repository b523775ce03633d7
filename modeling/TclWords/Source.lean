import TclWords.Fault
import TclWords.File

/-!
What words are read from.

A source never changes; reading it means moving a position over it, which is kept
beside the source. The kinds of sources differ in four respects only: which
positions may be sought, whether a source can tell where it stands, how characters
ahead are looked at, and whether there are characters at all.
-/

namespace TclWords

inductive Source where
  /-- A text in memory. Only the positions in it can be sought, and looking ahead
  is taking a slice. -/
  | indexed (text : Text)
  /-- A text in memory that is looked ahead in by reading on and going back. -/
  | stepping (text : Text)
  /-- A stream of characters, in which every position that is not negative can be
  sought, those past its end included. -/
  | stream (text : Text)
  /-- A stream of bytes. It yields no characters. -/
  | binary (bytes : List UInt8)
  /-- A file opened as text. Its positions stand for the tokens that it names its
  places with. -/
  | file (handle : TextFile)
deriving DecidableEq

namespace Source

/-- How many characters or bytes the source holds. -/
def size : Source → Nat
  | .indexed text => text.length
  | .stepping text => text.length
  | .stream text => text.length
  | .binary bytes => bytes.length
  | .file handle => handle.text.length

/-- The position sought, if the source admits it. Streams admit positions of any size;
a machine that counts them in words of 64 bits refuses those from 2 ^ 63 on. -/
def seek? (source : Source) (target : Int) : Except Fault Nat :=
  match source with
  | .indexed text | .stepping text =>
    if 0 ≤ target ∧ target ≤ text.length then .ok target.toNat
    else .error (.outsideText target text.length)
  | .stream _ => if 0 ≤ target then .ok target.toNat else .error (.negativeSeek target)
  | .binary _ => if 0 ≤ target then .ok target.toNat else .error (.negativeByteSeek target)
  | .file handle =>
    if !handle.isOpen then .error .closedFile
    else if 0 ≤ target then .ok target.toNat
    else .error (.negativeSeek target)

/-- The position that the source tells, if it can. Only files may fail to. -/
def tell? (source : Source) (position : Nat) : Except Fault Nat :=
  match source with
  | .indexed _ | .stepping _ | .stream _ | .binary _ => .ok position
  | .file handle =>
    if !handle.isOpen then .error .closedFile
    else if handle.lost.contains position then .error .undecodable
    else .ok position

/-- Closes a file. The other sources belong to someone else and stay open. -/
def close : Source → Source
  | .file handle => .file handle.close
  | source => source

theorem seek?_eq_ok {source : Source} {target : Int} {position : Nat}
    (sought : source.seek? target = .ok position) : (position : Int) = target := by
  have notNegative : 0 ≤ target ∧ target.toNat = position := by
    cases source with
    | indexed text | stepping text =>
        simp only [seek?] at sought
        split at sought
        · next inText => exact ⟨inText.1, Except.ok.inj sought⟩
        · cases sought
    | stream text | binary bytes =>
        simp only [seek?] at sought
        split at sought
        · next notNegative => exact ⟨notNegative, Except.ok.inj sought⟩
        · cases sought
    | file handle =>
        simp only [seek?] at sought
        split at sought
        · cases sought
        split at sought
        · next notNegative => exact ⟨notNegative, Except.ok.inj sought⟩
        · cases sought
  omega

/-- The position told is the one at which the source stands. -/
theorem tell?_eq_ok {source : Source} {position told : Nat}
    (tells : source.tell? position = .ok told) : told = position := by
  cases source with
  | indexed text | stepping text | stream text | binary bytes =>
      cases tells
      rfl
  | file handle =>
      simp only [tell?] at tells
      split at tells
      · cases tells
      split at tells
      · cases tells
      · exact (Except.ok.inj tells).symm

end Source

end TclWords
