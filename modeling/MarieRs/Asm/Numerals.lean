import MarieRs.Asm.Meaning

namespace MarieRs.Asm

theorem length_le_utf8Len (s : Str) : s.length ≤ utf8Len s := by
  induction s with
  | nil => exact le_rfl
  | cons c s ih =>
    have hsize := c.utf8Size_pos
    rw [List.length_cons, utf8Len_cons]
    omega

theorem literal_hexdigits {text : Str} (h : looksLikeAddressLiteral text = true) :
    text.all isAsciiHexdigit = true := by
  obtain ⟨c, rest, rfl, hc, hrest⟩ := isAddressLiteral_iff.mpr h
  rw [List.all_cons, Bool.and_eq_true, List.all_eq_true]
  exact ⟨by simp [isAsciiHexdigit, hc], hrest⟩

theorem digitsValue_cons (base : Nat) (c : Char) (digits : Str) :
    digitsValue base (c :: digits) =
      digitValue c * base ^ digits.length + digitsValue base digits := by
  rw [digitsValue, List.reverse_cons, List.map_append, Nat.ofDigits_append, List.map_singleton,
    Nat.ofDigits_singleton, List.length_map, List.length_reverse, digitsValue]
  ring

/-- Leading zeros are worth nothing. -/
theorem digitsValue_zeros (base : Nat) (digits : Str) :
    digitsValue base (digits.dropWhile (· == '0')) = digitsValue base digits := by
  induction digits with
  | nil => rfl
  | cons c digits ih =>
    by_cases hc : c = '0'
    · subst hc
      have hzero : digitValue '0' = 0 := by decide
      rw [List.dropWhile_cons_of_pos (by rfl), ih, digitsValue_cons, hzero, Nat.zero_mul,
        Nat.zero_add]
    · rw [List.dropWhile_cons_of_neg (by simpa using hc)]

theorem digit_hexdigit {base : Nat} (hbase : base ≤ 16) {c : Char}
    (h : (toDigit base c).isSome) : (toDigit 16 c).isSome ∧ digitValue c < base := by
  obtain ⟨d, hd⟩ := Option.isSome_iff_exists.mp h
  obtain ⟨hvalue, hlt⟩ := Option.filter_eq_some_iff.mp hd
  simp only [decide_eq_true_eq] at hlt
  have hlarge : toDigit 16 c = some d :=
    Option.filter_eq_some_iff.mpr ⟨hvalue, by simpa using hlt.trans_le hbase⟩
  rw [hlarge, toDigit_eq hbase hd]
  exact ⟨rfl, hlt⟩

theorem digitValue_zero {c : Char} (h : (toDigit 16 c).isSome) (hzero : digitValue c = 0) :
    c = '0' := by
  obtain ⟨d, hd⟩ := Option.isSome_iff_exists.mp h
  rw [digitValue, hd, Option.getD_some] at hzero
  subst hzero
  obtain ⟨hvalue, -⟩ := Option.filter_eq_some_iff.mp hd
  have hle : ∀ a b : Char, a ≤ b ↔ a.toNat ≤ b.toNat := fun _ _ => Iff.rfl
  have hnums : '0'.toNat = 48 ∧ 'a'.toNat = 97 ∧ 'A'.toNat = 65 := by decide
  obtain ⟨h0, ha, hA⟩ := hnums
  simp only [hle, h0, ha, hA] at hvalue
  split_ifs at hvalue with hnum hlower hupper
  · have hn : c.toNat = '0'.toNat := by
      rw [Option.some.injEq] at hvalue
      rw [h0]
      omega
    exact Char.toNat_inj.mp hn
  · rw [Option.some.injEq] at hvalue
    omega
  · rw [Option.some.injEq] at hvalue
    omega

theorem digitsValue_lt {base : Nat} (hbase : base ≤ 16) (hone : 1 < base) {digits : Str}
    (h : ∀ c ∈ digits, (toDigit base c).isSome) :
    digitsValue base digits < base ^ digits.length := by
  have hlt := Nat.ofDigits_lt_base_pow_length (l := digits.reverse.map digitValue) hone ?_
  · rwa [List.length_map, List.length_reverse] at hlt
  · intro d hd
    obtain ⟨c, hc, rfl⟩ := List.mem_map.mp hd
    exact (digit_hexdigit hbase (h c (List.mem_reverse.mp hc))).2

/-- From two digits on, a number is larger in a larger base. -/
theorem digitsValue_base_lt {base : Nat} (hbase : base < 16) {c : Char} {rest : Str}
    (hc : digitValue c ≠ 0) (hrest : rest ≠ []) :
    digitsValue base (c :: rest) < digitsValue 16 (c :: rest) := by
  have hpow : base ^ rest.length < 16 ^ rest.length :=
    Nat.pow_lt_pow_left hbase (mt List.length_eq_zero_iff.mp hrest)
  have hfirst : digitValue c * base ^ rest.length < digitValue c * 16 ^ rest.length :=
    Nat.mul_lt_mul_of_pos_left hpow (Nat.pos_of_ne_zero hc)
  have hothers : digitsValue base rest ≤ digitsValue 16 rest :=
    Nat.ofDigits_monotone _ hbase.le
  rw [digitsValue_cons, digitsValue_cons]
  omega

theorem zeros_head {digits rest : Str} {c : Char}
    (h : digits.dropWhile (· == '0') = c :: rest) : c ≠ '0' := by
  have hnot := List.head?_dropWhile_not (· == '0') digits
  rw [h] at hnot
  simpa using hnot

/-- Digits of a smaller base, read in base 16 with zero for what is too large, keep their value
only if at most one of them counts. -/
theorem digitsValue_hex_iff {base max : Nat} (hpos : 0 < base) (hbase : base < 16)
    (hmax : 15 ≤ max) {digits : Str} (h : ∀ c ∈ digits, (toDigit base c).isSome) :
    (if digitsValue 16 digits ≤ max then digitsValue 16 digits else 0) = digitsValue base digits ↔
      (digits.dropWhile (· == '0')).length ≤ 1 := by
  have hcounts : ∀ c ∈ digits.dropWhile (· == '0'), (toDigit base c).isSome := fun c hc =>
    h c ((List.dropWhile_suffix _).subset hc)
  rw [← digitsValue_zeros 16 digits, ← digitsValue_zeros base digits]
  cases hdigits : digits.dropWhile (· == '0') with
  | nil => simp [digitsValue]
  | cons c rest =>
    rw [hdigits] at hcounts
    obtain ⟨hsome, hlt⟩ := digit_hexdigit hbase.le (hcounts c List.mem_cons_self)
    by_cases hrest : rest = []
    · subst hrest
      have hone : ∀ b, digitsValue b [c] = digitValue c := by
        intro b
        rw [digitsValue, List.reverse_singleton, List.map_singleton, Nat.ofDigits_singleton]
      rw [hone, hone, if_pos (by omega)]
      simp
    · have hc : digitValue c ≠ 0 := fun hzero => zeros_head hdigits (digitValue_zero hsome hzero)
      have hlarger := digitsValue_base_lt hbase hc hrest
      have hpositive : 0 < digitsValue base (c :: rest) := by
        have hpower : 0 < digitValue c * base ^ rest.length :=
          Nat.mul_pos (Nat.pos_of_ne_zero hc) (Nat.pow_pos hpos)
        rw [digitsValue_cons]
        omega
      have hlength := List.length_pos_iff.mpr hrest
      rw [List.length_cons]
      split <;> omega

theorem fromStrRadix_eq {max base : Nat} (hbase : base ≤ 16) {digits : Str} (hne : digits ≠ [])
    (h : ∀ c ∈ digits, (toDigit base c).isSome) : fromStrRadix max base digits =
      if digitsValue base digits ≤ max then some (digitsValue base digits) else none := by
  rw [fromStrRadix, ofDigits_eq hbase h, if_neg]
  rw [not_or, not_not, List.all_eq_true]
  exact ⟨hne, h⟩

/-- A literal that fits into an address is read as one. -/
theorem literalAddress_exists {text : Str} (hall : text.all isAsciiHexdigit = true)
    (hfits : utf8Len (text.dropWhile (· == '0')) ≤ 3) :
    ∃ address, literalAddress text = some address ∧ digitsValue 16 text = address.toNat := by
  have hdigits : ∀ c ∈ text.dropWhile (· == '0'), (toDigit 16 c).isSome := fun c hc =>
    hexdigit_digit (List.all_eq_true.mp hall c ((List.dropWhile_suffix _).subset hc))
  have hlt : digitsValue 16 text < MEMORY_WORD_COUNT := by
    have hvalue := digitsValue_lt le_rfl (by decide) hdigits
    have hlength := (length_le_utf8Len _).trans hfits
    have hpow : 16 ^ (text.dropWhile (· == '0')).length ≤ 16 ^ 3 :=
      Nat.pow_le_pow_right (by decide) hlength
    rw [digitsValue_zeros] at hvalue
    exact hvalue.trans_le hpow
  obtain ⟨address, haddress⟩ :
      ∃ address, MemoryAddress.tryNew (digitsValue 16 text) = some address :=
    ⟨_, if_pos hlt⟩
  refine ⟨address, ?_, MemoryAddress.tryNew_eq_some.mp haddress⟩
  rw [← digitsValue_zeros] at haddress hlt
  rw [literalAddress]
  generalize text.dropWhile (· == '0') = digits at haddress hdigits hfits hlt
  by_cases hnil : digits = []
  · subst hnil
    exact haddress
  · have hmax : digitsValue 16 digits ≤ 2 ^ 16 - 1 := by
      have hcount : MEMORY_WORD_COUNT ≤ 2 ^ 16 := by decide
      omega
    simp only [if_neg hnil, if_pos hfits, fromStrRadix_eq le_rfl hnil hdigits, if_pos hmax,
      Option.bind_some, haddress]

end MarieRs.Asm
