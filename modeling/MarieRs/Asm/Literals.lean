import MarieRs.Asm.Numerals

namespace MarieRs.Asm

/-- The digits of a base, as a class of characters. -/
def digitClass : Radix → Char → Bool
  | .binary, c => '0' ≤ c && c ≤ '1'
  | .octal, c => '0' ≤ c && c ≤ '7'
  | .decimal, c => '0' ≤ c && c ≤ '9'
  | .hexadecimal, c =>
    ('0' ≤ c && c ≤ '9') || ('a' ≤ c && c ≤ 'f') || ('A' ≤ c && c ≤ 'F')

/-- `[0-9]+` with the digits of the base, and with `-?` before them in decimal. -/
def IsNumeral (radix : Radix) (text : Str) : Prop :=
  ∃ digits, (text = digits ∨ radix = .decimal ∧ text = '-' :: digits) ∧ digits ≠ [] ∧
    ∀ c ∈ digits, digitClass radix c = true

/-- The numbers that a word can hold. -/
def FitsWord (value : Int) : Prop := -32768 ≤ value ∧ value ≤ 65535

instance (value : Int) : Decidable (FitsWord value) := inferInstanceAs (Decidable (_ ∧ _))

/-- The codes of the digits of a base. -/
theorem toDigit_isSome (base : Nat) (c : Char) : (toDigit base c).isSome = true ↔
    (48 ≤ c.toNat ∧ c.toNat ≤ 57 ∧ c.toNat - 48 < base) ∨
      (97 ≤ c.toNat ∧ c.toNat ≤ 122 ∧ c.toNat - 97 + 10 < base) ∨
      (65 ≤ c.toNat ∧ c.toNat ≤ 90 ∧ c.toNat - 65 + 10 < base) := by
  have hle : ∀ a b : Char, a ≤ b ↔ a.toNat ≤ b.toNat := fun _ _ => Iff.rfl
  have hnums : '0'.toNat = 48 ∧ '9'.toNat = 57 ∧ 'a'.toNat = 97 ∧ 'z'.toNat = 122 ∧
      'A'.toNat = 65 ∧ 'Z'.toNat = 90 := by decide
  obtain ⟨h0, h9, ha, hz, hA, hZ⟩ := hnums
  simp only [toDigit, hle, h0, h9, ha, hz, hA, hZ]
  split_ifs <;> simp only [Option.filter, decide_eq_true_eq, Option.isSome_ite,
    Option.isSome_none, Bool.false_eq_true, false_iff] <;> omega

theorem digitClass_digit (radix : Radix) (c : Char) :
    digitClass radix c = (toDigit radix.base c).isSome := by
  have hle : ∀ a b : Char, a ≤ b ↔ a.toNat ≤ b.toNat := fun _ _ => Iff.rfl
  have hnums : '0'.toNat = 48 ∧ '1'.toNat = 49 ∧ '7'.toNat = 55 ∧ '9'.toNat = 57 ∧
      'a'.toNat = 97 ∧ 'f'.toNat = 102 ∧ 'A'.toNat = 65 ∧ 'F'.toNat = 70 := by decide
  obtain ⟨h0, h1, h7, h9, ha, hf, hA, hF⟩ := hnums
  rw [Bool.eq_iff_iff, toDigit_isSome]
  cases radix <;> simp only [digitClass, Radix.base, Bool.or_eq_true, Bool.and_eq_true,
    decide_eq_true_eq, hle, h0, h1, h7, h9, ha, hf, hA, hF] <;> omega

theorem allowsSign_iff {radix : Radix} : radix.allowsSign = true ↔ radix.base = 10 := by
  cases radix <;> decide

theorem isNumeral_iff {radix : Radix} {text : Str} :
    IsNumeral radix text ↔ IsLiteral radix.base text := by
  have hdecimal : radix = .decimal ↔ radix.base = 10 := by cases radix <;> decide
  simp only [IsNumeral, IsLiteral, digitClass_digit, hdecimal]

/-- What digits are converted to, with an overflow on 32 bits or on 16. -/
theorem finish_digits {negative : Bool} {digits : Str} {radix : Radix} (hne : digits ≠ [])
    (hall : ∀ c ∈ digits, (toDigit radix.base c).isSome) :
    finish negative digits radix =
      if digitsValue radix.base digits ≤ (if negative then 2 ^ 15 else 2 ^ 16 - 1) then
        .ok (BitVec.ofInt 16 (if negative then -(digitsValue radix.base digits : Int)
          else digitsValue radix.base digits))
      else .error .outOfRange := by
  have hdigits : digits.all (fun c => (toDigit radix.base c).isSome) = true :=
    List.all_eq_true.mpr hall
  rw [finish, if_neg hne, if_neg (not_not.mpr hdigits), fromStrRadix_eq (base_le radix) hne hall]
  by_cases hlong : digitsValue radix.base digits ≤ 2 ^ 32 - 1
  · rw [if_pos hlong]
    have hword : (if negative then -BitVec.ofNat 16 (digitsValue radix.base digits)
        else BitVec.ofNat 16 (digitsValue radix.base digits)) =
        BitVec.ofInt 16 (if negative then -(digitsValue radix.base digits : Int)
          else digitsValue radix.base digits) := by
      cases negative with
      | true => simp [BitVec.ofInt_neg]
      | false => simp
    by_cases hfits : digitsValue radix.base digits ≤ (if negative then 2 ^ 15 else 2 ^ 16 - 1)
    · simp only [if_pos hfits, if_neg (Nat.not_lt.mpr hfits), hword]
    · simp only [if_neg hfits, if_pos (Nat.lt_of_not_le hfits)]
  · have hover : ¬digitsValue radix.base digits ≤ (if negative then 2 ^ 15 else 2 ^ 16 - 1) := by
      split <;> omega
    simp only [if_neg hlong, if_neg hover]

theorem finish_rejects {negative : Bool} {digits : Str} {radix : Radix}
    (h : finish negative digits radix = .error .outOfRange) :
    digits ≠ [] ∧ ∀ c ∈ digits, (toDigit radix.base c).isSome := by
  rw [finish] at h
  split at h
  · cases h
  · rename_i hne
    split at h
    · cases h
    · rename_i hall
      rw [not_not, List.all_eq_true] at hall
      exact ⟨hne, hall⟩

section

variable {text : Str} {radix : Radix}

/-- The sign and the digits of a text without whitespace. -/
theorem parseWord_split (radix : Radix) (hspace : ∀ c ∈ text, isWhitespace c = false) :
    (∃ digits, text = '-' :: digits ∧ radix.allowsSign = true ∧
      literalValue radix.base text = -(digitsValue radix.base digits : Int) ∧
      parseWord text radix = finish true digits radix) ∨
    (∃ digits, text = '-' :: digits ∧ radix.allowsSign = false ∧
      parseWord text radix = .error (.unexpectedSign radix)) ∨
    (∀ digits, text ≠ '-' :: digits) ∧
      literalValue radix.base text = digitsValue radix.base text ∧
      parseWord text radix = finish false text radix := by
  have htrim := trim_eq hspace
  cases text with
  | nil =>
    refine .inr (.inr ⟨fun _ => (List.cons_ne_nil _ _).symm, rfl, ?_⟩)
    simp only [parseWord, splitSign, htrim, Bool.false_eq_true, false_and, if_false]
  | cons c rest =>
    by_cases hsign : c = '-'
    · subst hsign
      have hrest : trimStart rest = rest :=
        trimStart_eq fun c hc => hspace c (List.mem_cons_of_mem _ hc)
      cases hallowed : radix.allowsSign with
      | true =>
        refine .inl ⟨rest, rfl, rfl, rfl, ?_⟩
        simp only [parseWord, splitSign, htrim, hrest, hallowed, not_true, and_false, if_false]
      | false =>
        refine .inr (.inl ⟨rest, rfl, rfl, ?_⟩)
        simp only [parseWord, splitSign, htrim, hrest, hallowed, true_and, Bool.false_eq_true,
          not_false_eq_true, if_true]
    · have hnot : ∀ digits, c :: rest ≠ '-' :: digits := by
        intro digits heq
        exact hsign (List.cons.inj heq).1
      refine .inr (.inr ⟨hnot, ?_, parseWord_unsigned radix hspace hsign⟩)
      rw [literalValue]
      exact hnot

theorem parseWord_numeral (hspace : ∀ c ∈ text, isWhitespace c = false)
    (h : IsNumeral radix text) : parseWord text radix =
      if FitsWord (literalValue radix.base text) then
        .ok (BitVec.ofInt 16 (literalValue radix.base text))
      else .error .outOfRange := by
  obtain ⟨digits, hform, hne, hall⟩ := isNumeral_iff.mp h
  have hminus : ¬(toDigit radix.base '-').isSome := by cases radix <;> decide
  rcases parseWord_split radix hspace with ⟨rest, rfl, -, hvalue, hparse⟩ |
    ⟨rest, rfl, hallowed, -⟩ | ⟨hunsigned, hvalue, hparse⟩
  · have hdigits : digits = rest := by
      rcases hform with rfl | ⟨-, heq⟩
      · exact absurd (hall '-' List.mem_cons_self) hminus
      · exact (List.cons.inj heq).2.symm
    subst hdigits
    rw [hparse, finish_digits hne hall, hvalue]
    simp only [FitsWord, if_true]
    congr 1
    rw [eq_iff_iff]
    omega
  · rcases hform with rfl | ⟨hbase, -⟩
    · exact absurd (hall '-' List.mem_cons_self) hminus
    · rw [allowsSign_iff.mpr hbase] at hallowed
      cases hallowed
  · have hdigits : text = digits := by
      rcases hform with heq | ⟨-, heq⟩
      · exact heq
      · exact absurd heq (hunsigned digits)
    subst hdigits
    rw [hparse, finish_digits hne hall, hvalue]
    simp only [FitsWord, Bool.false_eq_true, if_false]
    congr 1
    rw [eq_iff_iff]
    omega

/-- What is malformed is not reported as out of range. -/
theorem parseWord_malformed (hspace : ∀ c ∈ text, isWhitespace c = false)
    (h : ¬IsNumeral radix text) :
    ∃ error, parseWord text radix = .error error ∧ error ≠ .outOfRange := by
  cases hparse : parseWord text radix with
  | ok word => exact absurd (isNumeral_iff.mpr (parseWord_ok hspace hparse).1) h
  | error error =>
    refine ⟨error, rfl, ?_⟩
    rintro rfl
    rcases parseWord_split radix hspace with ⟨rest, rfl, hallowed, -, hfinish⟩ |
      ⟨rest, rfl, -, hfinish⟩ | ⟨-, -, hfinish⟩
    · obtain ⟨hne, hall⟩ := finish_rejects (hfinish.symm.trans hparse)
      exact h (isNumeral_iff.mpr ⟨rest, .inr ⟨allowsSign_iff.mp hallowed, rfl⟩, hne, hall⟩)
    · rw [hfinish] at hparse
      cases hparse
    · obtain ⟨hne, hall⟩ := finish_rejects (hfinish.symm.trans hparse)
      exact h (isNumeral_iff.mpr ⟨text, .inl rfl, hne, hall⟩)

end

/-- Literals are accepted by their grammar and their range, and stand for their number. -/
theorem parseWord_grammar (radix : Radix) (text : Str)
    (hspace : ∀ c ∈ text, isWhitespace c = false) :
    (∀ word, parseWord text radix = .ok word ↔
      IsNumeral radix text ∧ FitsWord (literalValue radix.base text) ∧
        (word.toNat : Int) = literalValue radix.base text % 65536) ∧
    (parseWord text radix = .error .outOfRange ↔
      IsNumeral radix text ∧ ¬FitsWord (literalValue radix.base text)) := by
  by_cases hnumeral : IsNumeral radix text
  · rw [parseWord_numeral hspace hnumeral]
    by_cases hfits : FitsWord (literalValue radix.base text)
    · rw [if_pos hfits]
      have hvalue : ((BitVec.ofInt 16 (literalValue radix.base text)).toNat : Int) =
          literalValue radix.base text % 65536 := by
        rw [BitVec.toNat_ofInt]
        omega
      refine ⟨fun word => ?_, iff_of_false (by simp) fun h => h.2 hfits⟩
      rw [Except.ok.injEq]
      constructor
      · rintro rfl
        exact ⟨hnumeral, hfits, hvalue⟩
      · rintro ⟨-, -, hword⟩
        apply BitVec.eq_of_toNat_eq
        omega
    · rw [if_neg hfits]
      exact ⟨fun word => iff_of_false (by simp) fun h => hfits h.2.1,
        iff_of_true rfl ⟨hnumeral, hfits⟩⟩
  · obtain ⟨error, hparse, hne⟩ := parseWord_malformed hspace hnumeral
    rw [hparse]
    refine ⟨fun word => iff_of_false (by simp) fun h => hnumeral h.1,
      iff_of_false ?_ fun h => hnumeral h.1⟩
    rw [Except.error.injEq]
    exact hne

theorem parseWord_grammar_minimum :
    parseWord "-0032768".toList .decimal = .ok 0x8000 ∧
      parseWord "-32769".toList .decimal = .error .outOfRange := by
  have hlow := (parseWord_grammar .decimal "-0032768".toList
    (List.all_iff_forall_prop.mp (by decide))).1 0x8000
  have hover := (parseWord_grammar .decimal "-32769".toList
    (List.all_iff_forall_prop.mp (by decide))).2
  refine ⟨hlow.mpr ⟨⟨"0032768".toList, .inr ⟨rfl, rfl⟩, by decide,
    List.all_eq_true.mp (by decide)⟩, by decide, by decide⟩, hover.mpr ⟨⟨"32769".toList,
    .inr ⟨rfl, rfl⟩, by decide, List.all_eq_true.mp (by decide)⟩, by decide⟩⟩

end MarieRs.Asm
