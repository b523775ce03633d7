import TclWords.Proofs.Interchange
import TclWords.Proofs.LostPlaces
import TclWords.Proofs.Utf8

/-!
Files are read as the texts they hold, unless a place is lost.

Owns: the conventions for the ends of lines, each of which is read back as newlines; where a file
can lose places; that an open file which could be decoded up to its end and has lost no place
presents its text; and what reading the file of a text comes to.

Line ends are translated before anything else is read. So a backslash in front of one continues
the line in every convention, and no reader of words meets a carriage return that was not in the
text. But where lines end in a carriage return alone, a place right behind one may be lost, and
as every character is looked ahead at, reading then fails in the middle of a valid file.
-/

namespace TclWords

/-- How the lines of a file end. -/
inductive LineEnd where
  | newline
  | carriageReturn
  | carriageReturnNewline
deriving DecidableEq

/-- What stands at the end of a line. -/
def LineEnd.text : LineEnd → Text
  | .newline => [.newline]
  | .carriageReturn => [.carriageReturn]
  | .carriageReturnNewline => [.carriageReturn, .newline]

namespace Text

/-- The text with each of its newlines written in one convention. -/
def withLineEnds (lineEnd : LineEnd) (text : Text) : Text :=
  text.flatMap fun char => if char = .newline then lineEnd.text else [char]

section LineEnds

variable {char : CodePoint} {text rest : Text}

theorem withNewlines_cons (noReturn : char ≠ .carriageReturn) (rest : Text) :
    withNewlines (char :: rest) = char :: withNewlines rest := by
  rw [withNewlines.eq_def]
  simp only [if_neg noReturn]

theorem withNewlines_return_newline (rest : Text) :
    withNewlines (.carriageReturn :: .newline :: rest) = .newline :: withNewlines rest := by
  rw [withNewlines, if_pos rfl, if_pos rfl]

theorem behindReturns_cons (noReturn : char ≠ .carriageReturn) (rest : Text) (place : Nat) :
    behindReturns place (char :: rest) = behindReturns (place + 1) rest := by
  rw [behindReturns.eq_def]
  simp only [if_neg noReturn]

/-- A carriage return with no newline behind it ends a line by itself. -/
theorem withNewlines_return (alone : .newline ∉ rest.head?) :
    withNewlines (.carriageReturn :: rest) = .newline :: withNewlines rest := by
  cases rest with
  | nil => rfl
  | cons next later =>
      have notNewline : next ≠ .newline := by
        rintro rfl
        exact alone rfl
      rw [withNewlines, if_pos rfl, if_neg notNewline]

theorem withLineEnds_cons (lineEnd : LineEnd) (char : CodePoint) (text : Text) :
    withLineEnds lineEnd (char :: text) =
      (if char = .newline then lineEnd.text else [char]) ++ withLineEnds lineEnd text :=
  List.flatMap_cons

theorem newline_notMem_withLineEnds (text : Text) :
    .newline ∉ withLineEnds .carriageReturn text := by
  intro member
  obtain ⟨char, _, written⟩ := List.mem_flatMap.mp member
  split at written
  · exact absurd (List.mem_singleton.mp written) (by decide)
  · next notNewline => exact notNewline (List.mem_singleton.mp written).symm

/-- Every convention is read back as newlines. -/
theorem withNewlines_withLineEnds (lineEnd : LineEnd) (noReturn : .carriageReturn ∉ text) :
    (text.withLineEnds lineEnd).withNewlines = text := by
  induction text with
  | nil => rfl
  | cons char text inductionHypothesis =>
      have notReturn := (List.ne_of_not_mem_cons noReturn).symm
      have behind := inductionHypothesis (List.not_mem_of_not_mem_cons noReturn)
      rw [withLineEnds_cons]
      split
      · next isNewline =>
          cases lineEnd with
          | newline =>
              show withNewlines (.newline :: withLineEnds .newline text) = char :: text
              rw [withNewlines_cons (by decide), behind, isNewline]
          | carriageReturn =>
              have alone : .newline ∉ (withLineEnds .carriageReturn text).head? := fun atHead =>
                newline_notMem_withLineEnds text (List.mem_of_mem_head? atHead)
              show withNewlines (.carriageReturn :: withLineEnds .carriageReturn text) = _
              rw [withNewlines_return alone, behind, isNewline]
          | carriageReturnNewline =>
              show withNewlines (.carriageReturn :: .newline ::
                withLineEnds .carriageReturnNewline text) = _
              rw [withNewlines_return_newline, behind, isNewline]
      · show withNewlines (char :: withLineEnds lineEnd text) = _
        rw [withNewlines_cons notReturn, behind]

/-- Only a carriage return that ends a line by itself is a place lost behind. -/
theorem behindReturns_withLineEnds {lineEnd : LineEnd} (notAlone : lineEnd ≠ .carriageReturn)
    (noReturn : .carriageReturn ∉ text) (place : Nat) :
    (text.withLineEnds lineEnd).behindReturns place = [] := by
  induction text generalizing place with
  | nil => rfl
  | cons char text inductionHypothesis =>
      have notReturn := (List.ne_of_not_mem_cons noReturn).symm
      have behind := inductionHypothesis (List.not_mem_of_not_mem_cons noReturn)
      rw [withLineEnds_cons]
      split
      · cases lineEnd with
        | newline =>
            show behindReturns place (.newline :: withLineEnds .newline text) = []
            rw [behindReturns_cons (by decide), behind]
        | carriageReturn => exact absurd rfl notAlone
        | carriageReturnNewline =>
            show behindReturns place (.carriageReturn :: .newline ::
              withLineEnds .carriageReturnNewline text) = []
            rw [behindReturns, if_pos rfl, if_pos rfl, behind]
      · show behindReturns place (char :: withLineEnds lineEnd text) = []
        rw [behindReturns_cons notReturn, behind]

/-- The places counted are one or two characters behind the end of a line. -/
theorem exists_newline_of_mem_behindReturns {place offset : Nat} {raw : Text}
    (member : place ∈ raw.behindReturns offset) :
    ∃ index, raw.withNewlines[index]? = some .newline ∧
      (place = offset + index + 1 ∨ place = offset + index + 2) := by
  have further : ∀ {offset : Nat} {read : Text} (char : CodePoint),
      (∃ index, read[index]? = some .newline ∧
        (place = offset + 1 + index + 1 ∨ place = offset + 1 + index + 2)) →
      ∃ index, (char :: read)[index]? = some .newline ∧
        (place = offset + index + 1 ∨ place = offset + index + 2) := by
    rintro offset read char ⟨index, found, behind⟩
    exact ⟨index + 1, found, by omega⟩
  induction offset, raw using behindReturns.induct with
  | case1 offset => cases member
  | case2 offset => cases member
  | case3 offset later inductionHypothesis =>
      rw [behindReturns, if_pos rfl, if_pos rfl] at member
      rw [withNewlines_return_newline]
      exact further _ (inductionHypothesis member)
  | case4 offset later notNewline inductionHypothesis =>
      rw [behindReturns, if_pos rfl, if_neg notNewline, if_pos rfl] at member
      rw [withNewlines, if_pos rfl, if_neg notNewline]
      exact further _ (inductionHypothesis member)
  | case5 offset next later notNewline notReturn inductionHypothesis =>
      rw [behindReturns, if_pos rfl, if_neg notNewline, if_neg notReturn] at member
      rw [withNewlines, if_pos rfl, if_neg notNewline]
      rcases List.mem_cons.mp member with first | member
      · exact ⟨0, rfl, .inl first⟩
      rcases List.mem_cons.mp member with second | member
      · exact ⟨0, rfl, .inr second⟩
      · exact further _ (inductionHypothesis member)
  | case6 offset char rest notReturn inductionHypothesis =>
      rw [behindReturns_cons notReturn] at member
      rw [withNewlines_cons notReturn]
      exact further _ (inductionHypothesis member)

theorem isScalar_withLineEnds (lineEnd : LineEnd) (scalar : ∀ char ∈ text, char.IsScalar) :
    ∀ char ∈ text.withLineEnds lineEnd, char.IsScalar := by
  have ends : ∀ char ∈ lineEnd.text, char.IsScalar := by
    cases lineEnd <;> decide
  intro char member
  obtain ⟨written, inText, fromWritten⟩ := List.mem_flatMap.mp member
  split at fromWritten
  · exact ends char fromWritten
  · rw [List.mem_singleton.mp fromWritten]
    exact scalar written inText

end LineEnds

end Text

/-! ### Files and what they present -/

theorem TextFile.ofBytes_utf8 (strays : Nat → List UInt8) {text : Text}
    (scalar : ∀ char ∈ text, char.IsScalar) :
    ofBytes strays .utf8 text.utf8 = ⟨text.withNewlines, true,
      (text.behindReturns 0).filter fun place =>
        (Utf8.decode (strays place)).ending = .malformed, true⟩ := by
  have decoded : Encoding.utf8.decode text.utf8 = ⟨text, .complete⟩ := Utf8.decode_utf8 scalar
  rw [ofBytes, decoded]
  rfl

theorem Source.presents_file (text : Text) : (Source.file ⟨text, true, [], true⟩).Presents text :=
  fun _ _ => ⟨rfl, rfl, rfl, rfl⟩

/-- All words of a source are those of the text that it presents. -/
theorem Source.Presents.readValues_eq_split {source : Source} {text : Text}
    (presents : source.Presents text) (strict : Bool) :
    readValues strict source 0 = split strict text :=
  ((shifts_readValues strict).agrees presents (fun _ => rfl) 0 (Nat.zero_le _)).1

/-! ### Reading files -/

/-- The fault without the positions that it names. A file names them by other means than a text
in memory. -/
def Fault.withoutPlaces : Fault → Fault
  | .unterminatedQuote _ => .unterminatedQuote 0
  | .unterminatedBrace _ openBraces => .unterminatedBrace 0 openBraces
  | .danglingBackslash _ => .danglingBackslash 0
  | .unknownEscape char _ => .unknownEscape char 0
  | fault => fault

/-- The runs come to the same value or, but for positions, to the same fault, and give equally
many warnings. -/
structure Run.Matches {α : Type} (left right : Run α) : Prop where
  results : left.result.mapError Fault.withoutPlaces = right.result.mapError Fault.withoutPlaces
  warnings : left.warnings.length = right.warnings.length

/-- **Reading a file is splitting its text, unless a place is lost.** Write a text of scalar
values with no carriage return, in any convention for the ends of lines, and encode it: the file
of these bytes opens, and reading all its words comes to what splitting the text comes to, with
as many warnings. The one exception are files whose lines end in a carriage return alone: they
may also be refused as no text, one or two characters behind the end of a line, where stray
bytes that are no text were decoded together with those of the file. As everywhere, the token of
a place that is not lost is taken to lead back to it. -/
theorem files_are_read_as_their_text (strays : Nat → List UInt8) {text : Text}
    (scalar : ∀ char ∈ text, char.IsScalar) (noReturn : .carriageReturn ∉ text)
    (lineEnd : LineEnd) (strict : Bool) :
    ∃ file, TextFile.open? strays (some (text.withLineEnds lineEnd).utf8)
        (Text.ofString "utf-8") = .ok file ∧
      let run := readValues strict (.file file) 0
      run.Matches (split strict text) ∨
        lineEnd = .carriageReturn ∧ run.result = .error .undecodable ∧
          (Utf8.decode (strays run.position)).ending = .malformed ∧
          ∃ index, text[index]? = some .newline ∧
            (run.position = index + 1 ∨ run.position = index + 2) := by
  have named : Encoding.ofName? (Text.ofString "utf-8") = some .utf8 := by decide
  have written := TextFile.ofBytes_utf8 strays (Text.isScalar_withLineEnds lineEnd scalar)
  have translated := Text.withNewlines_withLineEnds lineEnd noReturn
  rw [translated] at written
  refine ⟨_, by simp only [TextFile.open?, named, written]; rfl, ?_⟩
  intro run
  rcases exactOrLost_readValues strict 0 with same | ⟨place, lost, warnings, failed⟩
  · left
    have reads : run = split strict text :=
      same.trans ((Source.presents_file text).readValues_eq_split strict)
    rw [reads]
    exact ⟨rfl, rfl⟩
  · right
    obtain ⟨behind, malformed⟩ := List.mem_filter.mp lost
    have atPlace : run = ⟨.error .undecodable, place, warnings⟩ := failed
    rw [atPlace]
    obtain ⟨index, isNewline, isBehind⟩ := Text.exists_newline_of_mem_behindReturns behind
    rw [translated] at isNewline
    rw [Nat.zero_add] at isBehind
    refine ⟨?_, rfl, of_decide_eq_true malformed, index, isNewline, isBehind⟩
    by_contra notAlone
    rw [Text.behindReturns_withLineEnds notAlone noReturn] at behind
    cases behind

/-- A line that is continued in a braced word, with sequences of one to four octets, is folded also
where its end is written as two characters, whatever strays there are. -/
theorem files_are_read_as_their_text_across_continued_line :
    let text := Text.ofString "\x7bé\\\n  €\x7d\n😀"
    let bytes : List UInt8 :=
      [0x7B, 0xC3, 0xA9, 0x5C, 0x0D, 0x0A, 0x20, 0x20, 0xE2, 0x82, 0xAC, 0x7D, 0x0D, 0x0A, 0xF0,
        0x9F, 0x98, 0x80]
    (∀ char ∈ text, char.IsScalar) ∧ .carriageReturn ∉ text ∧
      (text.withLineEnds .carriageReturnNewline).utf8 = bytes ∧
        (split true text).result = .ok [Text.ofString "é €", Text.ofString "😀"] ∧
          ∃ file, TextFile.open? (fun _ => [0x98]) (some bytes) (Text.ofString "utf-8") =
              .ok file ∧
            (readValues true (.file file) 0).Matches (split true text) := by
  intro text bytes
  have scalar : ∀ char ∈ text, char.IsScalar := by decide
  have noReturn : .carriageReturn ∉ text := by decide
  have encoded : (text.withLineEnds .carriageReturnNewline).utf8 = bytes := by decide +kernel
  have words : (split true text).result = .ok [Text.ofString "é €", Text.ofString "😀"] := by
    decide +kernel
  have opened := files_are_read_as_their_text (fun _ => [0x98]) scalar noReturn
    .carriageReturnNewline true
  rw [encoded] at opened
  obtain ⟨file, isOpen, agrees | ⟨alone, _⟩⟩ := opened
  · exact ⟨scalar, noReturn, encoded, words, file, isOpen, agrees⟩
  · cases alone

/-- The second word is never reached if, behind the blank in front of it, an octet of the
character in front of the line end is still in memory. -/
theorem carriage_returns_lose_places :
    ¬ ∀ (strays : Nat → List UInt8) (text : Text), (∀ char ∈ text, char.IsScalar) →
      .carriageReturn ∉ text → ∀ lineEnd strict,
        ∃ file, TextFile.open? strays (some (text.withLineEnds lineEnd).utf8)
            (Text.ofString "utf-8") = .ok file ∧
          (readValues strict (.file file) 0).Matches (split strict text) := by
  intro agree
  let strays : Nat → List UInt8 := fun _ => [0x98]
  let text := Text.ofString "u😀\n €"
  let file : TextFile := ⟨text, true, [3, 4], true⟩
  obtain ⟨_, opened, agrees⟩ := agree strays text (by decide) (by decide) .carriageReturn false
  have opens : TextFile.open? strays (some (text.withLineEnds .carriageReturn).utf8)
      (Text.ofString "utf-8") = .ok file := by decide +kernel
  have refused : (readValues false (.file file) 0).result = .error .undecodable := by
    decide +kernel
  have words : (split false text).result = .ok [Text.ofString "u😀", Text.ofString "€"] := by
    decide +kernel
  rw [opens] at opened
  cases opened
  have results := agrees.results
  rw [refused, words] at results
  cases results

end TclWords
