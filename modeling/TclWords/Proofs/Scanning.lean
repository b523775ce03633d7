import TclWords.Iteration
import TclWords.Proofs.Rewind

/-!
What a scan starts from, and what it comes to.

Owns: that blanks in front of a word make no difference to the word or to the scan that begins
with it; what a scan shows of a whole run of a reader of values; and where a scan ends that
meets no fault.
-/

namespace TclWords

open TclWords.Reader

variable {source : Source} {position : Nat} {blanks rest : Text}

/-- The scan that begins with `words`, read with `warnings`, and then goes on as `scanned`. -/
def Scan.behind (words : List Word) (warnings : List Warning) (scanned : Scan) : Scan :=
  ⟨words ++ scanned.words, scanned.fault?, scanned.position, warnings ++ scanned.warnings⟩

theorem Scan.behind_nil (scanned : Scan) : scanned.behind [] [] = scanned :=
  rfl

theorem Scan.behind_behind (words later : List Word) (warnings laterWarnings : List Warning)
    (scanned : Scan) :
    (scanned.behind later laterWarnings).behind words warnings =
      scanned.behind (words ++ later) (warnings ++ laterWarnings) := by
  unfold behind
  rw [List.append_assoc, List.append_assoc]

theorem scan_of_word {strict : Bool} {after : Nat} {word : Word} {warnings : List Warning}
    (run : Word.read strict source position = ⟨.ok (some word), after, warnings⟩) :
    scan strict source position = (scan strict source after).behind [word] warnings :=
  scan_of_some run

/-- The next word is the same one when the blanks in front of it have been passed. -/
theorem Word.read_skip (strict : Bool) (shown : source.Shows position (blanks ++ rest))
    (blank : AllBlank blanks) :
    Word.read strict source position = Word.read strict source (position + blanks.length) := by
  have shownBehind := shown.append
  have sameStart : ∀ further, position + (blanks ++ further).length =
      position + blanks.length + further.length := by
    intro further
    rw [List.length_append, Nat.add_assoc]
  rcases Text.allBlank_or_word rest with allBlank | ⟨inner, char, later, same, innerBlank, notBlank⟩
  · have blankFromHere : AllBlank (blanks ++ rest) :=
      fun char member => (List.mem_append.mp member).elim (blank char) (allBlank char)
    rw [read_of_blank strict shown blankFromHere, read_of_blank strict shownBehind allBlank,
      sameStart]
  · subst same
    rw [← List.append_assoc] at shown
    have blankFromHere : AllBlank (blanks ++ inner) :=
      fun char member => (List.mem_append.mp member).elim (blank char) (innerBlank char)
    rw [read_of_word strict shown blankFromHere notBlank rfl,
      read_of_word strict shownBehind innerBlank notBlank rfl, sameStart]

/-- A scan is told by the reading of its first word. -/
theorem scan_congr {strict : Bool} {here there : Nat}
    (same : Word.read strict source here = Word.read strict source there) :
    scan strict source here = scan strict source there := by
  rcases run : Word.read strict source there with ⟨fault | _ | word, after, warnings⟩
  · rw [scan_of_error run, scan_of_error (same.trans run)]
  · rw [scan_of_none run, scan_of_none (same.trans run)]
  · rw [scan_of_some run, scan_of_some (same.trans run)]

theorem scan_skip (strict : Bool) (shown : source.Shows position (blanks ++ rest))
    (blank : AllBlank blanks) :
    scan strict source position = scan strict source (position + blanks.length) :=
  scan_congr (Word.read_skip strict shown blank)

theorem scan_of_lands (strict : Bool) {after : Nat} (lands : source.LandsAt position after) :
    scan strict source position = scan strict source after := by
  obtain ⟨blanks, rest, shown, blank, _, atAfter⟩ := lands
  exact atAfter ▸ scan_skip strict shown blank

/-- Reading values comes to the values of the words scanned, unless the scan met a fault. -/
theorem readValues_apply (strict : Bool) (source : Source) (position : Nat) :
    readValues strict source position =
      ⟨match (scan strict source position).fault? with
        | none => .ok ((scan strict source position).words.map Word.value)
        | some fault => .error fault,
        (scan strict source position).position, (scan strict source position).warnings⟩ := by
  have mapped : readValues strict = List.map Word.value <$> readAll strict :=
    (map_eq_pure_bind _ _).symm
  rw [mapped, map_apply, readAll, Scan.run]
  rcases (scan strict source position).fault? with _ | fault
  · rfl
  · rfl

theorem warnings_split (strict : Bool) (text : Text) :
    (split strict text).warnings = (scan strict (.indexed text) 0).warnings := by
  rw [split, readValues_apply]

/-- A text that is split is scanned without a fault. -/
theorem scan_of_split {strict : Bool} {text : Text} {words : List Text}
    (succeeds : (split strict text).result = .ok words) :
    (scan strict (.indexed text) 0).fault? = none ∧
      words = (scan strict (.indexed text) 0).words.map Word.value := by
  rw [split, readValues_apply] at succeeds
  rcases ended : (scan strict (.indexed text) 0).fault? with _ | fault
  · rw [ended] at succeeds
    cases succeeds
    exact ⟨rfl, rfl⟩
  · rw [ended] at succeeds
    cases succeeds

end TclWords
