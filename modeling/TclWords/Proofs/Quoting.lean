import Mathlib.Data.List.Chain
import TclWords.Iteration
import TclWords.Proofs.Shown.Word

/-!
Decoding undoes quoting.

Owns: the three ways to write a text as a word, between double quotes, in braces and
bare; texts of written words with blanks between them; and that reading such a text
gives the words back, each where it was written, whether strictly or not.

Two words may touch unless the first one is bare. The texts written are arbitrary,
except that a text stands in braces only if its backslashes and braces pair up, and
that the empty text has no bare form.
-/

namespace TclWords

open TclWords.Reader

/-! ### The three forms of a word -/

/-- A character as it is written between double quotes. -/
def Quoted.protect (char : CodePoint) : Text :=
  if char = .backslash ∨ char = .doubleQuote then [.backslash, char] else [char]

/-- A character as it is written in a bare word. -/
def Bare.protect (char : CodePoint) : Text :=
  if char = .newline then [.backslash, .ofChar 'n']
  else if char.isBlank = true ∨ char = .backslash ∨ char = .doubleQuote ∨ char = .openBrace then
    [.backslash, char]
  else [char]

/-- Inside of `depth` braces the text can stand as it is. A backslash pairs with the
character behind it, which does not end a line, and the braces that are in no such pair
close in the order in which they open. -/
inductive Braced.Balanced : Nat → Text → Prop where
  | nil : Balanced 0 []
  | pair {depth : Nat} {char : CodePoint} {rest : Text} (notNewline : char ≠ .newline)
      (balanced : Balanced depth rest) : Balanced depth (.backslash :: char :: rest)
  | opening {depth : Nat} {rest : Text} (balanced : Balanced (depth + 1) rest) :
      Balanced depth (.openBrace :: rest)
  | closing {depth : Nat} {rest : Text} (balanced : Balanced depth rest) :
      Balanced (depth + 1) (.closeBrace :: rest)
  | plain {depth : Nat} {char : CodePoint} {rest : Text} (notBackslash : char ≠ .backslash)
      (notOpen : char ≠ .openBrace) (notClose : char ≠ .closeBrace)
      (balanced : Balanced depth rest) : Balanced depth (char :: rest)

namespace WordKind

/-- Whether a text can be written in the form. -/
def Admits : WordKind → Text → Prop
  | .quoted, _ => True
  | .braced, value => Braced.Balanced 0 value
  | .bare, value => value ≠ []

/-- The word of the form that stands for a text. -/
def write : WordKind → Text → Text
  | .quoted, value => .doubleQuote :: (value.flatMap Quoted.protect ++ [.doubleQuote])
  | .braced, value => .openBrace :: (value ++ [.closeBrace])
  | .bare, value => value.flatMap Bare.protect

end WordKind

/-! ### One character, one step -/

private theorem rewound_of_ok {reader : Reader CodePoint} {source : Source}
    {start position after : Nat} {char : CodePoint}
    (run : reader source position = ⟨.ok char, after, []⟩) :
    (some <$> rewindingTo start reader) source position = ⟨.ok (some char), after, []⟩ := by
  rw [map_apply, rewindingTo_eq_ok_iff.mpr run]
  rfl

variable {source : Source} {start position : Nat} {char : CodePoint} {rest value : Text}

namespace Quoted

private theorem step_of_protect (strict : Bool)
    (shown : source.Shows position (protect char ++ rest)) :
    step strict start source position =
      ⟨.ok (some char), position + (protect char).length, []⟩ := by
  by_cases escaped : char = .backslash ∨ char = .doubleQuote
  · rw [protect, if_pos escaped] at shown ⊢
    have symbol : char.isAlphanumeric = false ∧ char ≠ .newline := by
      rcases escaped with isBackslash | isQuote
      · rw [isBackslash]
        decide
      · rw [isQuote]
        decide
    rw [step_of_backslash strict shown]
    exact rewound_of_ok (Escape.read_of_symbol shown.tail strict symbol.1 symbol.2)
  · rw [protect, if_neg escaped] at shown ⊢
    rw [not_or] at escaped
    exact step_of_plain strict shown escaped.2 escaped.1

private theorem repeatedly_of_protected (strict : Bool)
    (shown : source.Shows position (value.flatMap protect ++ .doubleQuote :: rest)) :
    repeatedly (step strict start) (consuming_step strict start) source position =
      ⟨.ok value, position + (value.flatMap protect).length + 1, []⟩ := by
  induction value generalizing position with
  | nil => exact repeatedly_of_none (step_of_quote strict shown)
  | cons char value inductionHypothesis =>
      rw [List.flatMap_cons, List.append_assoc] at shown
      have first : step strict start source position = _ := step_of_protect strict shown
      have later := inductionHypothesis shown.append
      rw [repeatedly_of_some first later, List.flatMap_cons, List.length_append,
        ← Nat.add_assoc position]
      rfl

theorem read_of_protected (strict : Bool)
    (shown : source.Shows position (value.flatMap protect ++ .doubleQuote :: rest)) :
    read strict source position =
      ⟨.ok value, position + (value.flatMap protect).length + 1, []⟩ :=
  (read_of_shows strict shown).trans (repeatedly_of_protected strict shown)

end Quoted

namespace Bare

private theorem step_of_protect (strict : Bool)
    (shown : source.Shows position (protect char ++ rest)) :
    step strict start source position =
      ⟨.ok (some char), position + (protect char).length, []⟩ := by
  by_cases isNewline : char = .newline
  · subst isNewline
    have isControl : Escape.control? (.ofChar 'n') = some .newline := by decide
    rw [protect, if_pos rfl] at shown ⊢
    rw [step_of_backslash strict shown]
    exact rewound_of_ok (Escape.read_of_control shown.tail strict isControl)
  by_cases escaped :
      char.isBlank = true ∨ char = .backslash ∨ char = .doubleQuote ∨ char = .openBrace
  · rw [protect, if_neg isNewline, if_pos escaped] at shown ⊢
    have symbol : char.isAlphanumeric = false := by
      rcases escaped with blank | isBackslash | isQuote | isBrace
      · exact CodePoint.isAlphanumeric_of_isBlank blank
      · rw [isBackslash]
        decide
      · rw [isQuote]
        decide
      · rw [isBrace]
        decide
    rw [step_of_backslash strict shown]
    exact rewound_of_ok (Escape.read_of_symbol shown.tail strict symbol isNewline)
  · rw [protect, if_neg isNewline, if_neg escaped] at shown ⊢
    simp only [not_or] at escaped
    exact step_of_plain strict shown (Bool.eq_false_iff.mpr escaped.1) escaped.2.1

private theorem repeatedly_of_protected (strict : Bool)
    (shown : source.Shows position (value.flatMap protect ++ rest))
    (ends : ∀ char ∈ rest.head?, char.isBlank = true) :
    repeatedly (step strict start) (consuming_step strict start) source position =
      ⟨.ok value, position + (value.flatMap protect).length, []⟩ := by
  induction value generalizing position with
  | nil => exact repeatedly_of_none (step_of_end strict shown ends)
  | cons char value inductionHypothesis =>
      rw [List.flatMap_cons, List.append_assoc] at shown
      have first : step strict start source position = _ := step_of_protect strict shown
      have later := inductionHypothesis shown.append
      rw [repeatedly_of_some first later, List.flatMap_cons, List.length_append,
        ← Nat.add_assoc position]
      rfl

theorem read_of_protected (strict : Bool)
    (shown : source.Shows position (value.flatMap protect ++ rest))
    (ends : ∀ char ∈ rest.head?, char.isBlank = true) :
    read strict source position =
      ⟨.ok value, position + (value.flatMap protect).length, []⟩ :=
  (read_of_shows strict shown).trans (repeatedly_of_protected strict shown ends)

/-- A bare word begins with no blank and with no delimiter. -/
private theorem protect_cases (char : CodePoint) :
    ∃ first later, protect char = first :: later ∧ first.isBlank = false ∧
      first ≠ .doubleQuote ∧ first ≠ .openBrace := by
  by_cases isNewline : char = .newline
  · exact ⟨.backslash, [.ofChar 'n'], by rw [protect, if_pos isNewline], by decide⟩
  by_cases escaped :
      char.isBlank = true ∨ char = .backslash ∨ char = .doubleQuote ∨ char = .openBrace
  · refine ⟨.backslash, [char], ?_, by decide⟩
    rw [protect, if_neg isNewline, if_pos escaped]
  · refine ⟨char, [], ?_, ?_⟩
    · rw [protect, if_neg isNewline, if_neg escaped]
    · simp only [not_or] at escaped
      exact ⟨Bool.eq_false_iff.mpr escaped.1, escaped.2.2⟩

end Bare

namespace Braced

private theorem collect_of_piece {inner next : Nat} {piece later : Text}
    (stepRun : step start inner source position =
      ⟨.ok (some (piece, next)), position + piece.length, []⟩)
    (laterRead : ∃ pieces,
      collect (step start) (consuming_step start) next source (position + piece.length) =
        ⟨.ok pieces, position + piece.length + later.length + 1, []⟩ ∧
      pieces.flatten = later) :
    ∃ pieces, collect (step start) (consuming_step start) inner source position =
        ⟨.ok pieces, position + (piece ++ later).length + 1, []⟩ ∧
      pieces.flatten = piece ++ later := by
  rcases laterRead with ⟨pieces, run, together⟩
  refine ⟨piece :: pieces, ?_, by rw [List.flatten_cons, together]⟩
  rw [collect_of_some stepRun run, List.length_append, ← Nat.add_assoc position]
  rfl

/-- What balances comes back piece by piece, up to the brace that closes the word. -/
private theorem collect_of_balanced {inner : Nat} (balanced : Balanced inner value)
    (shown : source.Shows position (value ++ .closeBrace :: rest)) :
    ∃ pieces, collect (step start) (consuming_step start) inner source position =
        ⟨.ok pieces, position + value.length + 1, []⟩ ∧ pieces.flatten = value := by
  induction balanced generalizing position with
  | nil => exact ⟨[], collect_of_none (step_of_close shown), rfl⟩
  | @pair depth char later notNewline balanced inductionHypothesis =>
      exact collect_of_piece (step_of_pair shown notNewline depth)
        (inductionHypothesis shown.tail.tail)
  | @opening depth later balanced inductionHypothesis =>
      exact collect_of_piece (step_of_open shown depth) (inductionHypothesis shown.tail)
  | @closing depth later balanced inductionHypothesis =>
      exact collect_of_piece (step_of_inner_close shown depth)
        (inductionHypothesis shown.tail)
  | @plain depth char later notBackslash notOpen notClose balanced inductionHypothesis =>
      exact collect_of_piece (step_of_plain shown notBackslash notOpen notClose depth)
        (inductionHypothesis shown.tail)

theorem read_of_balanced (balanced : Balanced 0 value)
    (shown : source.Shows position (value ++ .closeBrace :: rest)) :
    read source position = ⟨.ok value, position + value.length + 1, []⟩ := by
  have contents : ∃ pieces,
      collect (step position) (consuming_step position) 0 source position = _ ∧ _ :=
    collect_of_balanced balanced shown
  rcases contents with ⟨pieces, run, together⟩
  rw [read_of_shows shown, map_apply, run, ← together]
  rfl

end Braced

/-! ### One written word -/

/-- A written word begins with the character that tells its form, and the reader for
that form takes all of it and nothing more. -/
private theorem readBody_of_write (strict : Bool) {kind : WordKind}
    (admitted : kind.Admits value) (shown : source.Shows start (kind.write value ++ rest))
    (ends : kind = .bare → ∀ char ∈ rest.head?, char.isBlank = true) :
    ∃ char later, kind.write value ++ rest = char :: later ∧ char.isBlank = false ∧
      WordKind.ofOpening [char] = kind ∧
      Word.readBody strict start char source (start + 1) =
        ⟨.ok value, start + (kind.write value).length, []⟩ := by
  cases kind with
  | quoted =>
      have opened : WordKind.quoted.write value ++ rest =
          .doubleQuote :: (value.flatMap Quoted.protect ++ .doubleQuote :: rest) := by
        rw [WordKind.write, List.cons_append, List.append_assoc, List.singleton_append]
      have width : (WordKind.quoted.write value).length =
          (value.flatMap Quoted.protect).length + 2 := by
        rw [WordKind.write, List.length_cons, List.length_append, List.length_singleton]
      rw [opened] at shown
      refine ⟨.doubleQuote, _, opened, by decide, by decide, ?_⟩
      rw [Word.readBody, if_pos rfl, Quoted.read_of_protected strict shown.tail, width,
        Nat.add_right_comm start 1]
      rfl
  | braced =>
      have opened : WordKind.braced.write value ++ rest =
          .openBrace :: (value ++ .closeBrace :: rest) := by
        rw [WordKind.write, List.cons_append, List.append_assoc, List.singleton_append]
      have width : (WordKind.braced.write value).length = value.length + 2 := by
        rw [WordKind.write, List.length_cons, List.length_append, List.length_singleton]
      rw [opened] at shown
      refine ⟨.openBrace, _, opened, by decide, by decide, ?_⟩
      rw [Word.readBody, if_neg (by decide), if_pos rfl,
        Braced.read_of_balanced admitted shown.tail, width, Nat.add_right_comm start 1]
      rfl
  | bare =>
      rcases value with _ | ⟨head, tail⟩
      · exact absurd rfl admitted
      rcases Bare.protect_cases head with
        ⟨first, later, escaped, notBlank, notQuote, notBrace⟩
      refine ⟨first, later ++ (tail.flatMap Bare.protect ++ rest), ?_, notBlank, ?_, ?_⟩
      · rw [WordKind.write, List.flatMap_cons, escaped, List.cons_append, List.cons_append,
          List.append_assoc]
      · exact WordKind.ofOpening_eq_bare_iff.mpr ⟨notQuote, notBrace⟩
      · rw [Word.readBody_of_bare strict shown notQuote notBrace,
          Bare.read_of_protected strict shown (ends rfl)]
        rfl

/-! ### Texts of written words -/

/-- A word written in one of the forms that admit it, with the blanks in front of it. -/
structure Written where
  gap : Text
  gapBlank : AllBlank gap
  kind : WordKind
  value : Text
  admitted : kind.Admits value

namespace Written

/-- The blanks and the word behind them. -/
def text (written : Written) : Text :=
  written.gap ++ written.kind.write written.value

/-- Written words one behind the other, and blanks behind the last one. -/
def join (all : List Written) (ending : Text) : Text :=
  all.foldr (fun written later => written.text ++ later) ending

/-- The words that stand at `position` when they are written one behind the other. -/
def words (position : Nat) : List Written → List Word
  | [] => []
  | written :: later =>
    let start := position + written.gap.length
    let stop := start + (written.kind.write written.value).length
    ⟨written.kind, written.value, start, stop⟩ :: words stop later

/-- Only behind a bare word there has to be a blank before the next one. -/
def Separated (all : List Written) : Prop :=
  all.IsChain fun earlier later => earlier.kind = .bare → later.gap ≠ []

/-- A written word is read back, wherever it stands and whatever follows it. -/
theorem read_text (strict : Bool) (written : Written)
    (shown : source.Shows position (written.text ++ rest))
    (ends : written.kind = .bare → ∀ char ∈ rest.head?, char.isBlank = true) :
    Word.read strict source position =
      ⟨.ok (some ⟨written.kind, written.value, position + written.gap.length,
          position + written.text.length⟩), position + written.text.length, []⟩ := by
  rw [text, List.append_assoc] at shown
  rcases readBody_of_write strict written.admitted shown.append ends with
    ⟨char, later, same, notBlank, opens, bodyRun⟩
  rw [same] at shown
  rw [Word.read_of_word strict shown written.gapBlank notBlank (rewindingTo_eq_ok_iff.mpr bodyRun),
    opens, text, List.length_append, ← Nat.add_assoc position]
  rfl

theorem join_head_blank {ending : Text} (endingBlank : AllBlank ending) {first : Written}
    {all : List Written} (separated : Separated (first :: all)) (bare : first.kind = .bare) :
    ∀ char ∈ (join all ending).head?, char.isBlank = true := by
  cases all with
  | nil =>
      intro char member
      exact endingBlank char (List.mem_of_mem_head? member)
  | cons next all =>
      intro char member
      have nonempty : next.gap ≠ [] := (List.isChain_cons_cons.mp separated).1 bare
      rcases gapHead : next.gap with _ | ⟨head, tail⟩
      · exact absurd gapHead nonempty
      · have isHead : char = head := by
          simp only [join, List.foldr_cons, text, gapHead, List.cons_append, List.head?_cons,
            Option.mem_def, Option.some.injEq] at member
          exact member.symm
        apply next.gapBlank
        rw [isHead, gapHead]
        exact List.mem_cons_self

/-- The scan of written words finds each of them where it stands, and nothing else. -/
theorem scan_join (strict : Bool) {all : List Written} {ending : Text}
    (endingBlank : AllBlank ending) (separated : Separated all)
    (shown : source.Shows position (join all ending)) :
    scan strict source position =
      ⟨words position all, none, position + (join all ending).length, []⟩ := by
  induction all generalizing position with
  | nil => exact scan_of_none (Word.read_of_blank strict shown endingBlank)
  | cons first later inductionHypothesis =>
      have firstRun := read_text strict first shown (join_head_blank endingBlank separated)
      have laterScan := inductionHypothesis separated.tail
        (shown.append : source.Shows (position + first.text.length) (join later ending))
      rw [scan_of_some firstRun, laterScan]
      simp only [words, join, text, List.foldr_cons, List.length_append, List.append_nil,
        Nat.add_assoc]

theorem words_map_value (position : Nat) (all : List Written) :
    (words position all).map Word.value = all.map Written.value := by
  induction all generalizing position with
  | nil => rfl
  | cons first later inductionHypothesis =>
      rw [words, List.map_cons, List.map_cons, inductionHypothesis]

end Written

/-- **Decoding undoes quoting.** Words written in any of the three forms, with any blanks
before, between and behind them, are read back as they were, with no warning, and each is
found in its form and at its place. Strictness makes no difference. -/
theorem split_join (strict : Bool) {all : List Written} {ending : Text}
    (endingBlank : AllBlank ending) (separated : Written.Separated all) :
    split strict (Written.join all ending) =
        ⟨.ok (all.map Written.value), (Written.join all ending).length, []⟩ ∧
      scan strict (.indexed (Written.join all ending)) 0 =
        ⟨Written.words 0 all, none, (Written.join all ending).length, []⟩ := by
  have shown : (Source.indexed (Written.join all ending)).Shows 0 (Written.join all ending) :=
    Source.shows_indexed (Nat.zero_le _)
  have scanned := Written.scan_join strict endingBlank separated shown
  rw [Nat.zero_add] at scanned
  refine ⟨?_, scanned⟩
  have allRun : readAll strict (.indexed (Written.join all ending)) 0 =
      ⟨.ok (Written.words 0 all), (Written.join all ending).length, []⟩ := by
    rw [readAll, scanned]
    rfl
  rw [split, readValues, bind_of_ok allRun, Written.words_map_value]
  rfl

/-- A bare word with a blank and a line end in it, a quoted one with both characters that
need a backslash, and one in braces that touches it and holds a lone surrogate. -/
def Written.mixed : List Written :=
  [{ gap := [], gapBlank := by decide, kind := .bare,
     value := [.ofChar 'a', .space, .newline], admitted := List.cons_ne_nil _ _ },
   { gap := [.space], gapBlank := by decide, kind := .quoted,
     value := [.doubleQuote, .backslash, .openBrace], admitted := trivial },
   { gap := [], gapBlank := by decide, kind := .braced,
     value := [.ofNat 0xD800, .backslash, .closeBrace, .openBrace, .closeBrace],
     admitted := .plain (by decide) (by decide) (by decide)
       (.pair (by decide) (.opening (.closing .nil))) }]

theorem split_join_mixed :
    AllBlank [.newline] ∧ Written.Separated Written.mixed ∧
      split true (Written.join Written.mixed [.newline]) =
        ⟨.ok (Written.mixed.map Written.value), 21, []⟩ ∧
      scan true (.indexed (Written.join Written.mixed [.newline])) 0 =
        ⟨Written.words 0 Written.mixed, none, 21, []⟩ := by
  have blank : AllBlank [.newline] := by decide
  have separated : Written.Separated Written.mixed := by
    unfold Written.Separated Written.mixed
    decide
  exact ⟨blank, separated, split_join true blank separated⟩

end TclWords
