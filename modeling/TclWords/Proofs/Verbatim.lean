import TclWords.Proofs.Surroundings

/-!
What becomes of the contents of a word when it is read.

Owns: the contents of a word, that is what stands between its delimiters; what must not occur
in them if they are to be kept as they are; and that the value of a word is never longer than
they are. Each backslash sequence and each continued line stands for a single character, so
contents in which there is one come out shorter, but never empty.
-/

namespace TclWords

open TclWords.Reader

/-! ### Contents with backslash sequences -/

/-- The only backslash in the contents is an unescaped one that ends the input. -/
def OnlyDangles (contents behind : Text) : Prop :=
  ∀ index < contents.length, contents[index]? = some .backslash →
    ¬ Text.Escapes (contents.take index) ∧ index + 1 = (contents ++ behind).length

instance (contents behind : Text) : Decidable (OnlyDangles contents behind) :=
  inferInstanceAs (Decidable (∀ index < contents.length, _))

theorem onlyDangles_cons {char : CodePoint} (notBackslash : char ≠ .backslash)
    (contents behind : Text) :
    OnlyDangles (char :: contents) behind ↔ OnlyDangles contents behind := by
  have escapes : ∀ text : Text, Text.Escapes (char :: text) ↔ text.Escapes :=
    fun _ => Text.escapes_append (Text.not_escapes_singleton notBackslash)
  constructor
  · intro dangles index inText found
    have later := dangles (index + 1) (Nat.succ_lt_succ inText) found
    rw [List.take_succ_cons, escapes] at later
    exact ⟨later.1, Nat.succ.inj later.2⟩
  · intro dangles index inText found
    cases index with
    | zero => exact absurd (Option.some.inj found) notBackslash
    | succ index =>
        have earlier := dangles index (Nat.lt_of_succ_lt_succ inText) found
        rw [List.take_succ_cons, escapes]
        exact ⟨earlier.1, congrArg Nat.succ earlier.2⟩

namespace Spells

variable {strict : Bool} {stops : CodePoint → Bool} {behind contents value : Text}

theorem length_le (spells : Spells strict stops behind contents value) :
    value.length ≤ contents.length := by
  induction spells with
  | nil => exact Nat.le_refl 0
  | plain notBackslash goesOn rest inductionHypothesis =>
      exact Nat.succ_le_succ inductionHypothesis
  | sequence meant taken rest inductionHypothesis =>
      simp only [List.length_append, List.length_cons]
      omega
  | dangling lenient atEnd => exact Nat.le_refl 1

/-- Everything in the contents stands for some character. -/
theorem value_eq_nil_iff (spells : Spells strict stops behind contents value) :
    value = [] ↔ contents = [] := by
  cases spells <;> simp

theorem value_eq_contents_iff (spells : Spells strict stops behind contents value) :
    value = contents ↔ OnlyDangles contents behind := by
  induction spells with
  | nil =>
      exact iff_of_true rfl fun index inText => absurd inText (Nat.not_lt_zero index)
  | plain notBackslash goesOn rest inductionHypothesis =>
      rw [onlyDangles_cons notBackslash, ← inductionHypothesis, List.cons_inj_right]
  | @sequence char tail contents value meant taken rest inductionHypothesis =>
      -- The value is too short, and the backslash has a character behind it.
      apply iff_of_false
      · intro same
        have shorter := rest.length_le
        have lengths := congrArg List.length same
        simp only [List.length_append, List.length_cons] at lengths
        omega
      · intro dangles
        have last := (dangles 0 (Nat.succ_pos _) rfl).2
        simp only [List.length_append, List.length_cons] at last
        omega
  | dangling lenient atEnd =>
      subst atEnd
      exact iff_of_true rfl (by decide)

end Spells

/-! ### Contents in braces -/

namespace Braced

variable {char : CodePoint} {front rest : Text}

/-- At `index` an unescaped backslash stands in front of a line end. -/
def ContinuesAt (contents : Text) (index : Nat) : Prop :=
  contents.UnescapedAt .backslash index ∧ contents[index + 1]? = some .newline

instance (contents : Text) (index : Nat) : Decidable (ContinuesAt contents index) :=
  inferInstanceAs (Decidable (_ ∧ _))

theorem ContinuesAt.lt_length {contents : Text} {index : Nat}
    (continues : ContinuesAt contents index) : index < contents.length :=
  Text.lt_length_of_unescapedAt continues.1

/-- What `foldBehind` looks for. -/
theorem continuesAt_length :
    ContinuesAt (front ++ char :: rest) front.length ↔
      char = .backslash ∧ ¬ front.Escapes ∧ rest.head? = some .newline := by
  unfold ContinuesAt Text.UnescapedAt
  rw [List.getElem?_append_right (Nat.le_refl _), List.getElem?_append_right (Nat.le_add_right _ 1),
    List.take_left, Nat.sub_self, Nat.add_sub_cancel_left, List.head?_eq_getElem?, and_assoc]
  simp only [List.getElem?_cons_zero, List.getElem?_cons_succ, Option.some.injEq]

theorem foldBehind_length_le (front text : Text) :
    (foldBehind front text).length ≤ text.length := by
  fun_induction foldBehind front text with
  | case1 front => exact Nat.le_refl 0
  | case2 front char rest folds inductionHypothesis =>
      have dropped := (List.dropWhile_sublist (l := rest.tail) spacesAndTabs.contains).length_le
      rw [List.length_tail] at dropped
      rw [List.length_cons, List.length_cons]
      omega
  | case3 front char rest kept inductionHypothesis => exact Nat.succ_le_succ inductionHypothesis

/-- A folded line leaves a space, and everything else stays. -/
theorem foldBehind_eq_nil_iff {text : Text} : foldBehind front text = [] ↔ text = [] := by
  cases text with
  | nil => simp [foldBehind]
  | cons char rest =>
      rw [foldBehind]
      split <;> simp

theorem foldBehind_eq_self_iff (front text : Text) :
    foldBehind front text = text ↔
      ∀ index, ¬ ContinuesAt (front ++ text) (front.length + index) := by
  fun_induction foldBehind front text with
  | case1 front =>
      refine iff_of_true rfl fun index continues => ?_
      have inText := continues.lt_length
      rw [List.append_nil] at inText
      omega
  | case2 front char rest folds inductionHypothesis =>
      apply iff_of_false
      · intro same
        have isSpace : CodePoint.space = char := (List.cons.inj same).1
        rw [folds.1] at isSpace
        exact absurd isSpace (by decide)
      · intro nowhere
        exact nowhere 0 (continuesAt_length.mpr folds)
  | case3 front char rest kept inductionHypothesis =>
      rw [List.cons_inj_right, inductionHypothesis, ← List.append_cons, List.length_append]
      constructor
      · intro nowhere index
        cases index with
        | zero => exact fun continues => kept (continuesAt_length.mp continues)
        | succ index =>
            rw [Nat.add_comm index, ← Nat.add_assoc]
            exact nowhere index
      · intro nowhere index
        rw [Nat.add_assoc]
        exact nowhere ([char].length + index)

theorem folded_length_le (contents : Text) : (folded contents).length ≤ contents.length :=
  foldBehind_length_le [] contents

theorem folded_eq_nil_iff {contents : Text} : folded contents = [] ↔ contents = [] :=
  foldBehind_eq_nil_iff

theorem folded_eq_self_iff {contents : Text} :
    folded contents = contents ↔ ∀ index < contents.length, ¬ ContinuesAt contents index := by
  rw [folded, foldBehind_eq_self_iff]
  simp only [List.nil_append, List.length_nil, Nat.zero_add]
  constructor
  · exact fun nowhere index _ => nowhere index
  · exact fun nowhere index continues => nowhere index continues.lt_length continues

end Braced

/-! ### Words -/

/-- How many characters of a word are delimiters. -/
def WordKind.delimiters : WordKind → Nat
  | .bare => 0
  | .quoted => 2
  | .braced => 2

namespace Word

/-- What a word that is `written` so holds between its delimiters. -/
def contents (written : Text) : Text :=
  match WordKind.ofOpening (written.take 1) with
  | .bare => written
  | .quoted => written.tail.dropLast
  | .braced => written.tail.dropLast

/-- Nothing in the contents stands for anything but itself. -/
def Verbatim (written behind : Text) : Prop :=
  match WordKind.ofOpening (written.take 1) with
  | .bare => OnlyDangles (contents written) behind
  | .quoted => OnlyDangles (contents written) (.doubleQuote :: behind)
  | .braced => ∀ index < (contents written).length, ¬ Braced.ContinuesAt (contents written) index

instance (written behind : Text) : Decidable (Verbatim written behind) := by
  unfold Verbatim
  split <;> infer_instance

/-- How the value of a word that is `written` so in front of `behind` compares with what stands
there. -/
structure Shortens (written behind value : Text) : Prop where
  eq_nil_iff : value = [] ↔
    written = [.doubleQuote, .doubleQuote] ∨ written = [.openBrace, .closeBrace]
  bare_ne_nil : WordKind.ofOpening (written.take 1) = .bare → value ≠ []
  length_le : value.length + (WordKind.ofOpening (written.take 1)).delimiters ≤ written.length
  eq_contents_iff : value = contents written ↔ Verbatim written behind

variable {strict : Bool} {behind written inner value : Text} {first last : CodePoint}

/-- The delimiters of the words that have them. -/
def Delimits (first last : CodePoint) : Prop :=
  first = .doubleQuote ∧ last = .doubleQuote ∨ first = .openBrace ∧ last = .closeBrace

theorem contents_of_delimited (delimited : Delimits first last) :
    contents (first :: inner ++ [last]) = inner := by
  have dropped : (first :: inner ++ [last]).tail.dropLast = inner := List.dropLast_concat
  rcases delimited with ⟨rfl, rfl⟩ | ⟨rfl, rfl⟩
  · exact dropped
  · exact dropped

theorem shortens_of_delimited (delimited : Delimits first last)
    (empty : value = [] ↔ inner = []) (shorter : value.length ≤ inner.length)
    (kept : value = inner ↔ Verbatim (first :: inner ++ [last]) behind) :
    Shortens (first :: inner ++ [last]) behind value := by
  have opening : (first :: inner ++ [last]).take 1 = [first] := rfl
  have isKind : WordKind.ofOpening [first] ≠ .bare ∧
      (WordKind.ofOpening [first]).delimiters = 2 := by
    rcases delimited with ⟨rfl, rfl⟩ | ⟨rfl, rfl⟩
    · decide
    · decide
  refine ⟨?_, ?_, ?_, ?_⟩
  · have differ : CodePoint.doubleQuote ≠ .openBrace := by decide
    rw [empty]
    rcases delimited with ⟨rfl, rfl⟩ | ⟨rfl, rfl⟩
    · simp [differ]
    · simp [differ.symm]
  · rw [opening]
    exact fun isBare => absurd isBare isKind.1
  · rw [opening, isKind.2, List.length_append, List.length_cons, List.length_singleton]
    omega
  · rw [contents_of_delimited delimited]
    exact kept

theorem shortens_of_bare (isBare : WordKind.ofOpening (written.take 1) = .bare)
    (nonempty : value ≠ []) (shorter : value.length ≤ written.length)
    (kept : value = written ↔ OnlyDangles written behind) : Shortens written behind value := by
  have whole : contents written = written := by
    rw [contents, isBare]
  refine ⟨iff_of_false nonempty ?_, fun _ => nonempty, ?_, ?_⟩
  · rintro (rfl | rfl)
    · exact absurd isBare (by decide)
    · exact absurd isBare (by decide)
  · rw [isBare]
    exact shorter
  · rw [Verbatim, isBare, whole]
    exact kept

/-- The value of every word that can be read compares so. -/
theorem Spelled.shortens (spelled : Spelled strict behind written value) :
    Shortens written behind value := by
  cases spelled with
  | @quoted inner _ spells =>
      have delimited : Delimits .doubleQuote .doubleQuote := Or.inl ⟨rfl, rfl⟩
      apply shortens_of_delimited delimited spells.value_eq_nil_iff spells.length_le
      show _ ↔ OnlyDangles (contents _) _
      rw [contents_of_delimited delimited]
      exact spells.value_eq_contents_iff
  | @braced inner first =>
      have delimited : Delimits .openBrace .closeBrace := Or.inr ⟨rfl, rfl⟩
      apply shortens_of_delimited delimited Braced.folded_eq_nil_iff (Braced.folded_length_le inner)
      show _ ↔ ∀ index < (contents _).length, ¬ Braced.ContinuesAt (contents _) index
      rw [contents_of_delimited delimited]
      exact Braced.folded_eq_self_iff
  | @bare char later _ notBlank notQuote notBrace spells ends =>
      have isBare : WordKind.ofOpening ((char :: later).take 1) = .bare :=
        WordKind.ofOpening_eq_bare_iff.mpr ⟨notQuote, notBrace⟩
      have nonempty : value ≠ [] := fun empty => by
        cases spells.value_eq_nil_iff.mp empty
      exact shortens_of_bare isBare nonempty spells.length_le spells.value_eq_contents_iff

theorem Spelled.begins (spelled : Spelled strict behind written value) :
    ∃ first ∈ written.head?, first.isBlank = false := by
  cases spelled with
  | quoted spells => exact ⟨.doubleQuote, rfl, by decide⟩
  | braced first => exact ⟨.openBrace, rfl, by decide⟩
  | bare notBlank notQuote notBrace spells ends => exact ⟨_, rfl, notBlank⟩

/-! ### Reading words -/

variable {source : Source} {position stop : Nat} {rest : Text} {warnings : List Warning}

/-- A word is absent only if nothing but blanks is left. -/
theorem readValue_eq_none_iff (strict : Bool) (shown : source.Shows position rest) :
    (readValue strict source position).result = .ok none ↔ AllBlank rest := by
  have notAllBlank : ∀ {blanks later : Text} {char : CodePoint}, char.isBlank = false →
      ¬ AllBlank (blanks ++ char :: later) :=
    fun notBlank blank => blank.notMem notBlank (List.mem_append_right _ List.mem_cons_self)
  cases outcome strict shown with
  | nothing blank valueRun wordRun =>
      rw [valueRun]
      exact iff_of_true rfl blank
  | word blank notBlank atStart bodyRun stands valueRun wordRun =>
      rw [valueRun]
      exact iff_of_false (fun same => by cases same) (notAllBlank notBlank)
  | fault blank notBlank atStart bodyRun valueRun wordRun =>
      rw [valueRun]
      exact iff_of_false (fun same => by cases same) (notAllBlank notBlank)

/-- A word that is read stands behind blanks, and begins with no blank. -/
theorem spelled_behind_blanks (shown : source.Shows position rest)
    (run : readValue strict source position = ⟨.ok (some value), stop, warnings⟩) :
    ∃ blanks written behind, rest = blanks ++ (written ++ behind) ∧ AllBlank blanks ∧
      stop = position + blanks.length + written.length ∧ Spelled strict behind written value := by
  rcases Text.allBlank_or_word rest with blank | ⟨blanks, char, later, rfl, blank, notBlank⟩
  · rw [readValue_of_blank strict shown blank] at run
    cases run
  have first : FirstWordAt position (blanks ++ char :: later) (position + blanks.length) :=
    ⟨blanks, char, later, rfl, blank, notBlank, rfl⟩
  obtain ⟨written, behind, spelled, same, stops, _⟩ :=
    exists_spelled_of_readValue shown first run
  rw [Nat.add_sub_cancel_left, List.drop_left] at same
  exact ⟨blanks, written, behind, by rw [same], blank, stops, spelled⟩

end Word

/-- **Absent, empty and shortened words.** A word is absent exactly if nothing but blanks is
left, and then the reader stops at the end. The value of a word that is read is empty exactly if
the word is a pair of delimiters and nothing else. It is never longer than what stands between
the delimiters, and is that itself exactly if nothing in it is decoded or folded. -/
theorem words_absent_empty_or_shortened {source : Source} {position : Nat} {rest : Text}
    (strict : Bool) (shown : source.Shows position rest) :
    ((Word.readValue strict source position).result = .ok none ↔ AllBlank rest) ∧
    (AllBlank rest →
      Word.readValue strict source position = ⟨.ok none, position + rest.length, []⟩) ∧
    ∀ value stop warnings,
      Word.readValue strict source position = ⟨.ok (some value), stop, warnings⟩ →
        ∃ blanks written behind, rest = blanks ++ (written ++ behind) ∧ AllBlank blanks ∧
          (∃ first ∈ written.head?, first.isBlank = false) ∧
          stop = position + blanks.length + written.length ∧
          Word.Shortens written behind value := by
  refine ⟨Word.readValue_eq_none_iff strict shown, Word.readValue_of_blank strict shown, ?_⟩
  intro value stop warnings run
  obtain ⟨blanks, written, behind, same, blank, stops, spelled⟩ :=
    Word.spelled_behind_blanks shown run
  exact ⟨blanks, written, behind, same, blank, spelled.begins, stops, spelled.shortens⟩

/-- A word in braces with a continued line, a bare word that keeps the backslash which ends the
input, and the end behind them. -/
theorem words_absent_empty_or_shortened_up_to_end :
    let text := Text.ofString " \x7ba\\\n  b\x7d c\\"
    let source := Source.indexed text
    Word.readValue true source 0 = ⟨.ok (some (Text.ofString "a b")), 9, []⟩ ∧
      (∃ blanks written behind, text = blanks ++ (written ++ behind) ∧ AllBlank blanks ∧
        (∃ first ∈ written.head?, first.isBlank = false) ∧
        9 = 0 + blanks.length + written.length ∧
        Word.Shortens written behind (Text.ofString "a b")) ∧
      ¬ Word.Verbatim (Text.ofString "\x7ba\\\n  b\x7d") (Text.ofString " c\\") ∧
      Word.readValue false source 9 =
        ⟨.ok (some (Text.ofString "c\\")), 12, [.keptBackslash 12]⟩ ∧
      (∃ blanks written behind, text.drop 9 = blanks ++ (written ++ behind) ∧ AllBlank blanks ∧
        (∃ first ∈ written.head?, first.isBlank = false) ∧
        12 = 9 + blanks.length + written.length ∧
        Word.Shortens written behind (Text.ofString "c\\")) ∧
      Word.Verbatim (Text.ofString "c\\") [] ∧
      Word.readValue true source 12 = ⟨.ok none, 12, []⟩ := by
  intro text source
  have atStart : source.Shows 0 text := ⟨by decide, by decide⟩
  have behindBraces : source.Shows 9 (text.drop 9) := ⟨by decide, rfl⟩
  have atEnd : source.Shows 12 [] := ⟨by decide, by decide⟩
  have folded : Word.readValue true source 0 = ⟨.ok (some (Text.ofString "a b")), 9, []⟩ :=
    Run.ext (by decide +kernel) (by decide +kernel) (by decide +kernel)
  have kept : Word.readValue false source 9 =
      ⟨.ok (some (Text.ofString "c\\")), 12, [.keptBackslash 12]⟩ :=
    Run.ext (by decide +kernel) (by decide +kernel) (by decide +kernel)
  obtain ⟨_, _, foldedShortens⟩ := words_absent_empty_or_shortened true atStart
  obtain ⟨_, _, keptShortens⟩ := words_absent_empty_or_shortened false behindBraces
  obtain ⟨_, absent, _⟩ := words_absent_empty_or_shortened true atEnd
  exact ⟨folded, foldedShortens _ _ _ folded, by decide +kernel, kept,
    keptShortens _ _ _ kept, by decide +kernel, absent (by decide)⟩

end TclWords
