import TclWords.Span

/-!
What a source of characters shows from a position on.

Owns: `Source.Shows`, the text that is left to read at a position, and what the
steps of `Reader` do there. Nothing behind this module looks at the kind of a source
again: a text in memory, a stream and a file that is text from end to end and has lost
no place differ in the positions they can stand at, and in nothing else.
-/

namespace TclWords

namespace Source

/-- The source can stand at `position`, and exactly `rest` is left to read there. A
text in memory has no positions past its end; a stream has, and shows nothing there. -/
def Shows (source : Source) (position : Nat) (rest : Text) : Prop :=
  match source with
  | .indexed text | .stepping text => position ≤ text.length ∧ text.drop position = rest
  | .stream text => text.drop position = rest
  | .binary _ => False
  | .file handle =>
    handle.isOpen = true ∧ handle.decodable = true ∧ handle.lost = [] ∧
      handle.text.drop position = rest

/-- The source can stand at `position`, whatever it shows there. -/
def Stands (source : Source) (position : Nat) : Prop :=
  ∃ rest, source.Shows position rest

theorem Shows.stands {source : Source} {position : Nat} {rest : Text}
    (shown : source.Shows position rest) : source.Stands position :=
  ⟨rest, shown⟩

private theorem drop_succ_of_cons {text rest : Text} {position : Nat} {char : CodePoint}
    (left : text.drop position = char :: rest) :
    position < text.length ∧ text[position]? = some char ∧ text.drop (position + 1) = rest := by
  have inText : position < text.length := by
    apply Nat.lt_of_not_le
    intro beyond
    rw [List.drop_eq_nil_of_le beyond] at left
    cases left
  refine ⟨inText, ?_, ?_⟩
  · rw [← List.head?_drop, left, List.head?_cons]
  · rw [← List.tail_drop, left, List.tail_cons]

private theorem getElem?_of_drop_eq_nil {text : Text} {position : Nat}
    (left : text.drop position = []) : text[position]? = none := by
  rw [← List.head?_drop, left, List.head?_nil]

theorem Shows.tail {source : Source} {position : Nat} {char : CodePoint} {rest : Text}
    (shown : source.Shows position (char :: rest)) : source.Shows (position + 1) rest := by
  cases source with
  | indexed text | stepping text =>
      rcases drop_succ_of_cons shown.2 with ⟨inText, _, left⟩
      exact ⟨inText, left⟩
  | stream text => exact (drop_succ_of_cons shown).2.2
  | binary bytes => exact shown
  | file handle =>
      obtain ⟨isOpen, decodable, keepsPlaces, left⟩ := shown
      exact ⟨isOpen, decodable, keepsPlaces, (drop_succ_of_cons left).2.2⟩

theorem Shows.append {source : Source} {position : Nat} {passed rest : Text}
    (shown : source.Shows position (passed ++ rest)) :
    source.Shows (position + passed.length) rest := by
  induction passed generalizing position with
  | nil => exact shown
  | cons char passed inductionHypothesis =>
      have further := inductionHypothesis shown.tail
      rw [List.length_cons, Nat.add_comm passed.length, ← Nat.add_assoc]
      exact further

theorem Shows.drop {source : Source} {position count : Nat} {rest : Text}
    (shown : source.Shows position rest) (within : count ≤ rest.length) :
    source.Shows (position + count) (rest.drop count) := by
  rw [← List.take_append_drop count rest] at shown
  have further := shown.append
  rwa [List.length_take, Nat.min_eq_left within] at further

/-- What is shown reaches up to the end of the source. -/
theorem Shows.length_eq {source : Source} {position : Nat} {rest : Text}
    (shown : source.Shows position rest) : rest.length = source.size - position := by
  cases source with
  | indexed text | stepping text => rw [← shown.2, List.length_drop, size]
  | stream text =>
      have left : text.drop position = rest := shown
      rw [← left, List.length_drop, size]
  | binary bytes => exact shown.elim
  | file handle => rw [← shown.2.2.2, List.length_drop, size]

theorem shows_indexed {text : Text} {position : Nat} (inText : position ≤ text.length) :
    (Source.indexed text).Shows position (text.drop position) :=
  ⟨inText, rfl⟩

theorem shows_stepping {text : Text} {position : Nat} (inText : position ≤ text.length) :
    (Source.stepping text).Shows position (text.drop position) :=
  ⟨inText, rfl⟩

theorem shows_stream (text : Text) (position : Nat) :
    (Source.stream text).Shows position (text.drop position) :=
  rfl

end Source

namespace Reader

variable {source : Source} {position : Nat} {rest : Text}

theorem readOne_of_cons {char : CodePoint} (shown : source.Shows position (char :: rest)) :
    readOne source position = ⟨.ok (some char), position + 1, []⟩ := by
  cases source with
  | indexed text | stepping text => simp only [readOne, (Source.drop_succ_of_cons shown.2).2.1]
  | stream text => simp only [readOne, (Source.drop_succ_of_cons shown).2.1]
  | binary bytes => exact shown.elim
  | file handle =>
      simp only [readOne, shown.1, (Source.drop_succ_of_cons shown.2.2.2).2.1, Bool.not_true,
        Bool.false_eq_true, if_false]

theorem readOne_of_nil (shown : source.Shows position []) :
    readOne source position = ⟨.ok none, position, []⟩ := by
  cases source with
  | indexed text | stepping text => simp only [readOne, Source.getElem?_of_drop_eq_nil shown.2]
  | stream text => simp only [readOne, Source.getElem?_of_drop_eq_nil shown]
  | binary bytes => exact shown.elim
  | file handle =>
      simp only [readOne, shown.1, shown.2.1, Source.getElem?_of_drop_eq_nil shown.2.2.2,
        Bool.not_true, Bool.and_false, Bool.false_eq_true, if_false]

/-- What shows anything can tell all its positions. -/
theorem tell?_of_shows (shown : source.Shows position rest) (here : Nat) :
    source.tell? here = .ok here := by
  cases source with
  | indexed text | stepping text | stream text => rfl
  | binary bytes => exact shown.elim
  | file handle =>
      simp only [Source.tell?, shown.1, shown.2.2.1, List.contains_nil, Bool.not_true,
        Bool.false_eq_true, if_false]

theorem position_of_shows (shown : source.Shows position rest) (here : Nat) :
    Reader.position source here = ⟨.ok here, here, []⟩ := by
  rw [Reader.position, tell?_of_shows shown]

/-- A reader that first asks where it stands goes on from there. -/
theorem position_bind_of_shows {α : Type} {next : Nat → Reader α}
    (shown : source.Shows position rest) (here : Nat) :
    (Reader.position >>= next) source here = next here source here :=
  bind_of_ok (position_of_shows shown here)

theorem seek_of_shows (shown : source.Shows position rest) (here : Nat) :
    seek position source here = ⟨.ok (), position, []⟩ := by
  cases source with
  | indexed text | stepping text =>
      have admitted : 0 ≤ (position : Int) ∧ (position : Int) ≤ text.length := by
        have inText := shown.1
        omega
      simp only [seek, Source.seek?, if_pos admitted, Int.toNat_natCast]
  | stream text =>
      have notNegative : 0 ≤ (position : Int) := by omega
      simp only [seek, Source.seek?, if_pos notNegative, Int.toNat_natCast]
  | binary bytes => exact shown.elim
  | file handle =>
      have notNegative : 0 ≤ (position : Int) := by omega
      simp only [seek, Source.seek?, shown.1, if_pos notNegative, Int.toNat_natCast,
        Bool.not_true, Bool.false_eq_true, if_false]

theorem failAt_of_shows {α : Type} (shown : source.Shows position rest) (fault : Fault)
    (here : Nat) :
    (failAt position fault : Reader α) source here = ⟨.error fault, position, []⟩ := by
  rw [failAt, bind_of_ok (seek_of_shows shown here)]
  rfl

theorem rewindingTo_of_error {α : Type} {reader : Reader α} {here after : Nat} {fault : Fault}
    {warnings : List Warning} (shown : source.Shows position rest)
    (run : reader source here = ⟨.error fault, after, warnings⟩) (ofWord : fault.IsReadFault) :
    rewindingTo position reader source here = ⟨.error fault, position, warnings⟩ := by
  rw [rewindingTo, run]
  simp only [if_pos ofWord, failAt_of_shows shown, Run.precededBy, List.append_nil]

/-! ### Looking ahead -/

private theorem readUpTo_of_shows (shown : source.Shows position rest) (count : Nat) :
    readUpTo count source position =
      ⟨.ok (rest.take count), position + (rest.take count).length, []⟩ := by
  induction count generalizing position rest with
  | zero => rfl
  | succ count inductionHypothesis =>
      rw [readUpTo]
      cases rest with
      | nil =>
          rw [bind_of_ok (readOne_of_nil shown)]
          rfl
      | cons char rest =>
          rw [bind_of_ok (readOne_of_cons shown)]
          simp only
          rw [bind_of_ok (inductionHypothesis shown.tail)]
          rw [pure_apply, List.take_succ_cons, List.length_cons, Nat.add_assoc, Nat.add_comm 1]
          rfl

private theorem peekByReading_of_shows (shown : source.Shows position rest) (count : Int) :
    peekByReading count source position = ⟨.ok (rest.take count.toNat), position, []⟩ := by
  rw [peekByReading, position_bind_of_shows shown,
    bind_of_ok (readUpTo_of_shows shown count.toNat), bind_of_ok (seek_of_shows shown _)]
  rfl

/-- Every source sees the same characters ahead. -/
theorem peek_of_shows (shown : source.Shows position rest) {count : Int}
    (notNegative : 0 ≤ count) :
    peek count source position = ⟨.ok (rest.take count.toNat), position, []⟩ := by
  have forward : ¬ count < 0 := by omega
  cases source with
  | indexed text =>
      have inFront : ¬ ((position : Int) + count < 0) := by omega
      have width : ((position : Int) + count).toNat - position = count.toNat := by omega
      simp only [peek, Text.slice, inFront, if_false, width, shown.2]
  | stepping text => exact peekByReading_of_shows shown count
  | stream text =>
      have left : text.drop position = rest := shown
      simp only [peek, forward, if_false, left]
  | binary bytes => exact shown.elim
  | file handle =>
      simp only [peek, tell?_of_shows shown position, shown.2.1, shown.2.2.2, forward, if_false,
        Bool.not_true, Bool.and_false, Bool.false_eq_true]

theorem peek_one_of_shows (shown : source.Shows position rest) :
    peek 1 source position = ⟨.ok rest.head?.toList, position, []⟩ := by
  rw [peek_of_shows shown (by omega)]
  cases rest <;> rfl

theorem peekOne_of_shows (shown : source.Shows position rest) :
    peekOne source position = ⟨.ok rest.head?, position, []⟩ := by
  rw [peekOne, bind_of_ok (peek_one_of_shows shown)]
  cases rest <;> rfl

/-! ### Runs of characters -/

private theorem spanStep_of_refused (shown : source.Shows position rest)
    (accepts : CodePoint → Bool) (limit : Option Nat)
    (refused : ∀ char ∈ rest.head?, (accepts char && limit != some 0) = false) :
    spanStep accepts limit source position = ⟨.ok none, position, []⟩ := by
  rw [spanStep, bind_of_ok (peekOne_of_shows shown)]
  cases rest with
  | nil => rfl
  | cons char rest =>
      simp only [List.head?_cons, refused char rfl, Bool.false_eq_true, if_false]
      rfl

private theorem spanStep_of_accepted {char : CodePoint}
    (shown : source.Shows position (char :: rest)) {accepts : CodePoint → Bool}
    {limit : Option Nat}
    (accepted : (accepts char && limit != some 0) = true) :
    spanStep accepts limit source position =
      ⟨.ok (some (char, limit.map (· - 1))), position + 1, []⟩ := by
  rw [spanStep, bind_of_ok (peekOne_of_shows shown)]
  simp only [List.head?_cons, accepted, if_true]
  rw [bind_of_ok (readOne_of_cons shown)]
  rfl

/-- As much of a text as a limit admits. -/
def upTo (limit : Option Nat) (text : Text) : Text :=
  match limit with
  | none => text
  | some count => text.take count

/-- A run of characters is the longest one that is accepted and within the limit. -/
theorem span_of_shows (shown : source.Shows position rest) (accepts : CodePoint → Bool)
    (limit : Option Nat) :
    span accepts limit source position =
      ⟨.ok ((upTo limit rest).takeWhile accepts),
        position + ((upTo limit rest).takeWhile accepts).length, []⟩ := by
  induction rest generalizing position limit with
  | nil =>
      have stops := spanStep_of_refused shown accepts limit
        (by intro char member; cases member)
      rw [span, collect_of_none stops]
      cases limit <;> simp [upTo]
  | cons char rest inductionHypothesis =>
      by_cases accepted : (accepts char && limit != some 0) = true
      · have taken : (upTo limit (char :: rest)).takeWhile accepts =
            char :: (upTo (limit.map (· - 1)) rest).takeWhile accepts := by
          rw [Bool.and_eq_true] at accepted
          rcases limit with _ | _ | count
          · simp [upTo, accepted.1]
          · simp at accepted
          · simp [upTo, accepted.1]
        have later := inductionHypothesis shown.tail (limit.map (· - 1))
        rw [span] at later
        rw [span, collect_of_some (spanStep_of_accepted shown accepted) later, taken,
          List.length_cons, Nat.add_assoc, Nat.add_comm 1]
        rfl
      · have stops := spanStep_of_refused shown accepts limit
          (by
            intro head member
            cases member
            simpa using accepted)
        have nothing : (upTo limit (char :: rest)).takeWhile accepts = [] := by
          rcases limit with _ | _ | count <;> simp_all [upTo]
        rw [span, collect_of_none stops, nothing]
        rfl

theorem length_takeWhile_upTo_le (accepts : CodePoint → Bool) (limit : Option Nat)
    (rest : Text) : ((upTo limit rest).takeWhile accepts).length ≤ rest.length := by
  have within : (upTo limit rest).length ≤ rest.length := by
    cases limit with
    | none => exact Nat.le_refl _
    | some count => exact List.length_take_le' count rest
  exact Nat.le_trans (List.takeWhile_sublist accepts).length_le within

/-- The source can stand behind a run of characters. -/
theorem stands_behind_span (shown : source.Shows position rest) (accepts : CodePoint → Bool)
    (limit : Option Nat) :
    source.Stands (position + ((upTo limit rest).takeWhile accepts).length) :=
  (shown.drop (length_takeWhile_upTo_le accepts limit rest)).stands

/-- The blanks in front of a word, or of the end. -/
theorem blankSpan_of_shows (shown : source.Shows position rest) :
    blankSpan source position =
      ⟨.ok (rest.takeWhile CodePoint.isBlank),
        position + (rest.takeWhile CodePoint.isBlank).length, []⟩ :=
  span_of_shows shown CodePoint.isBlank none

end Reader

end TclWords
