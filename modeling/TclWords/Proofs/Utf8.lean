import TclWords.File.Encoding

/-!
UTF-8 is decoded exactly.

Owns: the octets of a text, by the standard encoding of characters; the sequences of octets that
the decoder reads as one code point; that these are the octets of the scalar values, one sequence
for each of them; and which octets are decoded up to their end.

The first octet of a sequence tells how many follow and between which bounds the next one lies.
`Finishes` is what may follow it, by recursion on how many octets are left.
-/

namespace TclWords

/-- A Unicode scalar value: any code point but a surrogate. -/
def CodePoint.IsScalar (char : CodePoint) : Prop :=
  char.value.isValidChar

instance (char : CodePoint) : Decidable char.IsScalar := by
  unfold CodePoint.IsScalar
  infer_instance

/-- The octets of a scalar value. -/
def CodePoint.utf8 (char : CodePoint) : List UInt8 :=
  String.utf8EncodeChar (Char.ofNat char.value)

/-- The octets of a text of scalar values. -/
def Text.utf8 (text : Text) : List UInt8 :=
  text.flatMap CodePoint.utf8

namespace CodePoint

variable {number : Nat}

theorem isScalar_ofNat (valid : number.isValidChar) : (ofNat number).IsScalar := by
  have bounded : number < 0x110000 := by omega
  rw [IsScalar, value_ofNat bounded]
  exact valid

theorem utf8_ofNat (valid : number.isValidChar) :
    (ofNat number).utf8 =
      if number ≤ 0x7F then [UInt8.ofNat number]
      else if number ≤ 0x7FF then
        [UInt8.ofNat (number / 64 % 32 + 0xC0), UInt8.ofNat (number % 64 + 0x80)]
      else if number ≤ 0xFFFF then
        [UInt8.ofNat (number / 4096 % 16 + 0xE0), UInt8.ofNat (number / 64 % 64 + 0x80),
          UInt8.ofNat (number % 64 + 0x80)]
      else
        [UInt8.ofNat (number / 262144 % 8 + 0xF0), UInt8.ofNat (number / 4096 % 64 + 0x80),
          UInt8.ofNat (number / 64 % 64 + 0x80), UInt8.ofNat (number % 64 + 0x80)] := by
  have bounded : number < 0x110000 := by omega
  have same : (Char.ofNat number).val.toNat = number := by
    rw [Char.ofNat, dif_pos valid]
    rfl
  rw [utf8, value_ofNat bounded, String.utf8EncodeChar, same]

end CodePoint

namespace Utf8

/-- The octets finish a sequence, which then stands for the number. -/
inductive Finishes : Unfinished → List UInt8 → Nat → Prop where
  | last {bits low high : Nat} {octet : UInt8} (notBelow : low ≤ octet.toNat)
      (notAbove : octet.toNat ≤ high) :
      Finishes ⟨0, bits, low, high⟩ [octet] (bits * 64 + (octet.toNat - 0x80))
  | next {later bits low high number : Nat} {octet : UInt8} {octets : List UInt8}
      (notBelow : low ≤ octet.toNat) (notAbove : octet.toNat ≤ high)
      (finishes : Finishes ⟨later, bits * 64 + (octet.toNat - 0x80), 0x80, 0xBF⟩ octets number) :
      Finishes ⟨later + 1, bits, low, high⟩ (octet :: octets) number

/-- The octets are a whole sequence, which stands for the number. -/
inductive Sequence : List UInt8 → Nat → Prop where
  | single {octet : UInt8} (ascii : octet.toNat < 0x80) : Sequence [octet] octet.toNat
  | several {lead : UInt8} {octets : List UInt8} {unfinished : Unfinished} {number : Nat}
      (begins : begin? lead.toNat = some unfinished)
      (finishes : Finishes unfinished octets number) : Sequence (lead :: octets) number

namespace Finishes

variable {bits low high number : Nat} {octets : List UInt8}

theorem exists_last (finishes : Finishes ⟨0, bits, low, high⟩ octets number) :
    ∃ octet : UInt8, octets = [octet] ∧ low ≤ octet.toNat ∧ octet.toNat ≤ high ∧
      number = bits * 64 + (octet.toNat - 0x80) := by
  cases finishes with
  | last notBelow notAbove => exact ⟨_, rfl, notBelow, notAbove, rfl⟩

theorem exists_next {later : Nat}
    (finishes : Finishes ⟨later + 1, bits, low, high⟩ octets number) :
    ∃ (octet : UInt8) (behind : List UInt8), octets = octet :: behind ∧ low ≤ octet.toNat ∧
      octet.toNat ≤ high ∧
        Finishes ⟨later, bits * 64 + (octet.toNat - 0x80), 0x80, 0xBF⟩ behind number := by
  cases finishes with
  | next notBelow notAbove finishes => exact ⟨_, _, rfl, notBelow, notAbove, finishes⟩

end Finishes

/-! ### Sequences are what is decoded -/

section Decoding

variable {octets : List UInt8} {text : Text}

theorem decodeAfter_of_finishes {unfinished : Unfinished} {number : Nat}
    (finishes : Finishes unfinished octets number) (behind : List UInt8) :
    decodeAfter (some unfinished) (octets ++ behind) =
      (decodeAfter none behind).cons (.ofNat number) := by
  induction finishes with
  | last notBelow notAbove =>
      rw [List.singleton_append, decodeAfter, if_pos ⟨notBelow, notAbove⟩]
  | next notBelow notAbove finishes inductionHypothesis =>
      rw [List.cons_append, decodeAfter, if_pos ⟨notBelow, notAbove⟩]
      exact inductionHypothesis

theorem exists_finishes {unfinished : Unfinished}
    (decoded : decodeAfter (some unfinished) octets = ⟨text, .complete⟩) :
    ∃ front behind number later, octets = front ++ behind ∧
      Finishes unfinished front number ∧ text = .ofNat number :: later ∧
        decodeAfter none behind = ⟨later, .complete⟩ := by
  induction octets generalizing unfinished with
  | nil => cases decoded
  | cons octet octets inductionHypothesis =>
      obtain ⟨left, bits, low, high⟩ := unfinished
      rw [decodeAfter] at decoded
      split at decoded
      · next within =>
          cases left with
          | zero =>
              rcases further : decodeAfter none octets with ⟨later, ending⟩
              simp only [further, Decoded.cons, Decoded.mk.injEq] at decoded
              obtain ⟨atFront, rfl⟩ := decoded
              exact ⟨[octet], octets, _, later, rfl, .last within.1 within.2, atFront.symm,
                further⟩
          | succ left =>
              obtain ⟨front, behind, number, later, rfl, finishes, atFront, further⟩ :=
                inductionHypothesis decoded
              exact ⟨octet :: front, behind, number, later, rfl,
                .next within.1 within.2 finishes, atFront, further⟩
      · cases decoded

theorem decodeAfter_of_sequence {number : Nat} (sequence : Sequence octets number)
    (behind : List UInt8) :
    decodeAfter none (octets ++ behind) = (decodeAfter none behind).cons (.ofNat number) := by
  cases sequence with
  | single ascii => rw [List.singleton_append, decodeAfter, if_pos ascii]
  | @several lead octets unfinished _ begins finishes =>
      have notAscii : ¬ lead.toNat < 0x80 := by
        intro ascii
        have below : lead.toNat < 0xC2 := by omega
        rw [begin?, if_pos below] at begins
        cases begins
      rw [List.cons_append, decodeAfter, if_neg notAscii]
      simp only [begins]
      exact decodeAfter_of_finishes finishes behind

theorem exists_sequence (decoded : decodeAfter none octets = ⟨text, .complete⟩) :
    octets = [] ∧ text = [] ∨
      ∃ front behind number later, octets = front ++ behind ∧ Sequence front number ∧
        text = .ofNat number :: later ∧ decodeAfter none behind = ⟨later, .complete⟩ := by
  cases octets with
  | nil =>
      cases decoded
      exact .inl ⟨rfl, rfl⟩
  | cons octet octets =>
      right
      rw [decodeAfter] at decoded
      split at decoded
      · next ascii =>
          rcases further : decodeAfter none octets with ⟨later, ending⟩
          simp only [further, Decoded.cons, Decoded.mk.injEq] at decoded
          obtain ⟨atFront, rfl⟩ := decoded
          exact ⟨[octet], octets, _, later, rfl, .single ascii, atFront.symm, further⟩
      split at decoded
      · cases decoded
      · next unfinished begins =>
          obtain ⟨front, behind, number, later, rfl, finishes, atFront, further⟩ :=
            exists_finishes decoded
          exact ⟨octet :: front, behind, number, later, rfl, .several begins finishes, atFront,
            further⟩

end Decoding

/-! ### Sequences are the octets of scalar values -/

section Sequences

variable {lead number : Nat}

theorem begin?_of_two (notBelow : 0xC2 ≤ lead) (below : lead < 0xE0) :
    begin? lead = some ⟨0, lead - 0xC0, 0x80, 0xBF⟩ := by
  grind [begin?]

/-- Behind the first octet for overlong forms and the one for surrogates, the next is bounded more
closely. -/
theorem begin?_of_three (notBelow : 0xE0 ≤ lead) (below : lead < 0xF0) :
    ∃ low high, begin? lead = some ⟨1, lead - 0xE0, low, high⟩ ∧
      ∀ octet, low ≤ octet ∧ octet ≤ high ↔ 0x80 ≤ octet ∧ octet ≤ 0xBF ∧
        (lead = 0xE0 → 0xA0 ≤ octet) ∧ (lead = 0xED → octet ≤ 0x9F) := by
  refine ⟨if lead = 0xE0 then 0xA0 else 0x80, if lead = 0xED then 0x9F else 0xBF, ?_, ?_⟩
  · grind [begin?]
  · intro octet
    split <;> split <;> omega

/-- Behind the first octet for overlong forms and the one for numbers above the last code point,
the next is bounded more closely. -/
theorem begin?_of_four (notBelow : 0xF0 ≤ lead) (below : lead < 0xF5) :
    ∃ low high, begin? lead = some ⟨2, lead - 0xF0, low, high⟩ ∧
      ∀ octet, low ≤ octet ∧ octet ≤ high ↔ 0x80 ≤ octet ∧ octet ≤ 0xBF ∧
        (lead = 0xF0 → 0x90 ≤ octet) ∧ (lead = 0xF4 → octet ≤ 0x8F) := by
  refine ⟨if lead = 0xF0 then 0x90 else 0x80, if lead = 0xF4 then 0x8F else 0xBF, ?_, ?_⟩
  · grind [begin?]
  · intro octet
    split <;> split <;> omega

theorem begin?_cases {unfinished : Unfinished} (begins : begin? lead = some unfinished) :
    (0xC2 ≤ lead ∧ lead < 0xE0) ∨ (0xE0 ≤ lead ∧ lead < 0xF0) ∨ (0xF0 ≤ lead ∧ lead < 0xF5) := by
  grind [begin?]

private theorem exists_octet (bounded : number < 0x100) :
    ∃ octet : UInt8, octet.toNat = number ∧ UInt8.ofNat number = octet := by
  refine ⟨.ofNat number, ?_, rfl⟩
  rw [UInt8.toNat_ofNat']
  omega

private theorem ofNat_eq (octet : UInt8) (same : number = octet.toNat) :
    UInt8.ofNat number = octet := by
  rw [same, UInt8.ofNat_toNat]

/-- The octets of a scalar value are a sequence that stands for it. -/
theorem sequence_utf8 (valid : number.isValidChar) :
    Sequence (CodePoint.ofNat number).utf8 number := by
  rw [CodePoint.utf8_ofNat valid]
  split
  · obtain ⟨octet, isNumber, same⟩ := @exists_octet number (by omega)
    rw [same, ← isNumber]
    exact .single (by omega)
  split
  · obtain ⟨lead, isLead, sameLead⟩ := @exists_octet (number / 64 % 32 + 0xC0) (by omega)
    obtain ⟨last, isLast, sameLast⟩ := @exists_octet (number % 64 + 0x80) (by omega)
    have collected : (lead.toNat - 0xC0) * 64 + (last.toNat - 0x80) = number := by omega
    rw [sameLead, sameLast, ← collected]
    exact .several (begin?_of_two (by omega) (by omega)) (.last (by omega) (by omega))
  split
  · obtain ⟨lead, isLead, sameLead⟩ := @exists_octet (number / 4096 % 16 + 0xE0) (by omega)
    obtain ⟨inner, isInner, sameInner⟩ := @exists_octet (number / 64 % 64 + 0x80) (by omega)
    obtain ⟨last, isLast, sameLast⟩ := @exists_octet (number % 64 + 0x80) (by omega)
    obtain ⟨low, high, begins, admits⟩ := @begin?_of_three lead.toNat (by omega) (by omega)
    have admitted := (admits inner.toNat).mpr (by omega)
    have collected : ((lead.toNat - 0xE0) * 64 + (inner.toNat - 0x80)) * 64 +
        (last.toNat - 0x80) = number := by omega
    rw [sameLead, sameInner, sameLast, ← collected]
    exact .several begins (.next admitted.1 admitted.2 (.last (by omega) (by omega)))
  · obtain ⟨lead, isLead, sameLead⟩ := @exists_octet (number / 262144 % 8 + 0xF0) (by omega)
    obtain ⟨inner, isInner, sameInner⟩ := @exists_octet (number / 4096 % 64 + 0x80) (by omega)
    obtain ⟨third, isThird, sameThird⟩ := @exists_octet (number / 64 % 64 + 0x80) (by omega)
    obtain ⟨last, isLast, sameLast⟩ := @exists_octet (number % 64 + 0x80) (by omega)
    obtain ⟨low, high, begins, admits⟩ := @begin?_of_four lead.toNat (by omega) (by omega)
    have admitted := (admits inner.toNat).mpr (by omega)
    have collected : (((lead.toNat - 0xF0) * 64 + (inner.toNat - 0x80)) * 64 +
        (third.toNat - 0x80)) * 64 + (last.toNat - 0x80) = number := by omega
    rw [sameLead, sameInner, sameThird, sameLast, ← collected]
    exact .several begins (.next admitted.1 admitted.2
      (.next (by omega) (by omega) (.last (by omega) (by omega))))

/-- A sequence stands for a scalar value, and this has no other sequence. -/
theorem Sequence.eq_utf8 {octets : List UInt8} (sequence : Sequence octets number) :
    number.isValidChar ∧ octets = (CodePoint.ofNat number).utf8 := by
  cases sequence with
  | @single octet ascii =>
      have valid : octet.toNat.isValidChar := by omega
      rw [CodePoint.utf8_ofNat valid, if_pos (by omega), ofNat_eq octet rfl]
      exact ⟨valid, rfl⟩
  | @several lead octets unfinished _ begins finishes =>
      rcases begin?_cases begins with bounds | bounds | bounds
      · rw [begin?_of_two bounds.1 bounds.2, Option.some.injEq] at begins
        rw [← begins] at finishes
        obtain ⟨last, rfl, notBelow, notAbove, collected⟩ := finishes.exists_last
        have valid : number.isValidChar := by omega
        rw [CodePoint.utf8_ofNat valid, if_neg (by omega), if_pos (by omega),
          ofNat_eq lead (by omega), ofNat_eq last (by omega)]
        exact ⟨valid, rfl⟩
      · obtain ⟨low, high, known, admits⟩ := begin?_of_three bounds.1 bounds.2
        rw [known, Option.some.injEq] at begins
        rw [← begins] at finishes
        obtain ⟨inner, _, rfl, fromLow, upToHigh, finishes⟩ := finishes.exists_next
        obtain ⟨last, rfl, notBelow, notAbove, collected⟩ := finishes.exists_last
        have innerBounds := (admits inner.toNat).mp ⟨fromLow, upToHigh⟩
        have valid : number.isValidChar := by omega
        rw [CodePoint.utf8_ofNat valid, if_neg (by omega), if_neg (by omega), if_pos (by omega),
          ofNat_eq lead (by omega), ofNat_eq inner (by omega), ofNat_eq last (by omega)]
        exact ⟨valid, rfl⟩
      · obtain ⟨low, high, known, admits⟩ := begin?_of_four bounds.1 bounds.2
        rw [known, Option.some.injEq] at begins
        rw [← begins] at finishes
        obtain ⟨inner, _, rfl, fromLow, upToHigh, finishes⟩ := finishes.exists_next
        obtain ⟨third, _, rfl, thirdNotBelow, thirdNotAbove, finishes⟩ := finishes.exists_next
        obtain ⟨last, rfl, notBelow, notAbove, collected⟩ := finishes.exists_last
        have innerBounds := (admits inner.toNat).mp ⟨fromLow, upToHigh⟩
        have valid : number.isValidChar := by omega
        rw [CodePoint.utf8_ofNat valid, if_neg (by omega), if_neg (by omega), if_neg (by omega),
          ofNat_eq lead (by omega), ofNat_eq inner (by omega), ofNat_eq third (by omega),
          ofNat_eq last (by omega)]
        exact ⟨valid, rfl⟩

end Sequences

/-! ### Texts -/

section Texts

variable {octets : List UInt8} {text : Text}

theorem decode_utf8 (scalar : ∀ char ∈ text, char.IsScalar) :
    decode text.utf8 = ⟨text, .complete⟩ := by
  induction text with
  | nil => rfl
  | cons char text inductionHypothesis =>
      have sequence : Sequence char.utf8 char.value := by
        have encoded := sequence_utf8 (scalar char List.mem_cons_self)
        rwa [CodePoint.ofNat_value] at encoded
      have further : decodeAfter none (Text.utf8 text) = ⟨text, .complete⟩ :=
        inductionHypothesis fun other member => scalar other (List.mem_cons_of_mem char member)
      show decodeAfter none (char.utf8 ++ Text.utf8 text) = _
      rw [decodeAfter_of_sequence sequence, further, CodePoint.ofNat_value]
      rfl

theorem eq_utf8_of_decode (decoded : decode octets = ⟨text, .complete⟩) :
    (∀ char ∈ text, char.IsScalar) ∧ octets = text.utf8 := by
  unfold decode at decoded
  induction text generalizing octets with
  | nil =>
      rcases exists_sequence decoded with ⟨rfl, _⟩ | ⟨_, _, _, _, _, _, notEmpty, _⟩
      · exact ⟨fun char member => (by cases member), rfl⟩
      · cases notEmpty
  | cons char text inductionHypothesis =>
      rcases exists_sequence decoded with ⟨_, empty⟩ |
        ⟨front, behind, number, later, rfl, sequence, atFront, further⟩
      · cases empty
      · obtain ⟨rfl, rfl⟩ := List.cons.inj atFront
        obtain ⟨valid, rfl⟩ := sequence.eq_utf8
        obtain ⟨scalar, rfl⟩ := inductionHypothesis further
        exact ⟨List.forall_mem_cons.mpr ⟨CodePoint.isScalar_ofNat valid, scalar⟩, rfl⟩

/-- **UTF-8 is decoded exactly.** The octets that are decoded up to their end are the ones of the
texts of scalar values, and each of them is decoded to its text. -/
theorem decode_eq_complete_iff :
    decode octets = ⟨text, .complete⟩ ↔
      (∀ char ∈ text, char.IsScalar) ∧ octets = text.utf8 := by
  constructor
  · exact eq_utf8_of_decode
  · rintro ⟨scalar, rfl⟩
    exact decode_utf8 scalar

end Texts

end Utf8

end TclWords
