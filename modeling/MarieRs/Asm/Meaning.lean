import MarieRs.Asm.Grammar
import MarieRs.Asm.Layout

namespace MarieRs.Asm

/-- The value of a digit, in whatever base it is one. -/
def digitValue (c : Char) : Nat := (toDigit 16 c).getD 0

/-- The number that digits write in a base. -/
def digitsValue (base : Nat) (digits : Str) : Nat :=
  Nat.ofDigits base (digits.reverse.map digitValue)

/-- The number that a literal writes: digits, after a minus sign if there is one. -/
def literalValue (base : Nat) : Str → Int
  | '-' :: digits => -(digitsValue base digits : Int)
  | digits => digitsValue base digits

/-- At least one digit of the base; only a decimal literal may have a sign. -/
def IsLiteral (base : Nat) (text : Str) : Prop :=
  ∃ digits, (text = digits ∨ base = 10 ∧ text = '-' :: digits) ∧ digits ≠ [] ∧
    ∀ c ∈ digits, (toDigit base c).isSome

/-- `^[0-9][0-9a-fA-F]*$` -/
def IsAddressLiteral (text : Str) : Prop :=
  ∃ c rest, text = c :: rest ∧ isAsciiDigit c = true ∧ ∀ d ∈ rest, isAsciiHexdigit d = true

/-- The base of the literal directives, under any letter case. -/
def literalBase (mnemonic : Str) : Option Nat :=
  if eqIgnoreAsciiCase mnemonic "DEC".toList then some 10
  else if eqIgnoreAsciiCase mnemonic "OCT".toList then some 8
  else if eqIgnoreAsciiCase mnemonic "HEX".toList then some 16
  else none

def isClear (mnemonic : Str) : Bool := eqIgnoreAsciiCase mnemonic "Clear".toList

/-- The opcode that a mnemonic names, under any letter case. -/
def Names (mnemonic : Str) (opcode : Opcode) : Prop :=
  eqIgnoreAsciiCase mnemonic opcode.mnemonic.toList = true ∨
    eqIgnoreAsciiCase mnemonic "ADR".toList = true ∧ opcode = .jnS ∨
    isClear mnemonic = true ∧ opcode = .loadImmi

/-- What an operand stands for: an address in hexadecimal, or the address of the one
statement that defines it. -/
def OperandMeans (source : Str) (a : Assembly) (text : Str) (value : Nat) : Prop :=
  (IsAddressLiteral text → value = digitsValue 16 text) ∧
    (¬ IsAddressLiteral text → ∃ p ∈ a.places, labelOn source p.1 = some text ∧
      value = p.2.toNat ∧ ∀ q ∈ a.places, labelOn source q.1 = some text → q = p)

/-- The word that a statement stands for. -/
def WordMeans (source : Str) (a : Assembly) (s : Statement) (word : Word) : Prop :=
  match literalBase s.mnemonic with
  | some base => ∃ text, s.operand = some text ∧ IsLiteral base text ∧
      word = BitVec.ofInt 16 (literalValue base text)
  | none => ∃ opcode value, Names s.mnemonic opcode ∧
      word.toNat = opcode.toNibble * 4096 + value ∧
      if isClear s.mnemonic ∨ opcode = .input ∨ opcode = .output ∨ opcode = .halt then value = 0
      else ∃ text, s.operand = some text ∧ OperandMeans source a text value

theorem toDigit_eq {base : Nat} (hbase : base ≤ 16) {c : Char} {d : Nat}
    (h : toDigit base c = some d) : digitValue c = d := by
  obtain ⟨hd, hlt⟩ := Option.filter_eq_some_iff.mp h
  have hlarge : toDigit 16 c = some d :=
    Option.filter_eq_some_iff.mpr ⟨hd, by
      simp only [decide_eq_true_eq] at hlt ⊢
      omega⟩
  rw [digitValue, hlarge, Option.getD_some]

theorem ofDigits_eq {base : Nat} (hbase : base ≤ 16) {digits : Str}
    (h : ∀ c ∈ digits, (toDigit base c).isSome) :
    ofDigits base digits = digitsValue base digits := by
  induction digits using List.reverseRecOn with
  | nil => rfl
  | append_singleton digits c ih =>
    obtain ⟨d, hd⟩ := Option.isSome_iff_exists.mp (h c (by simp))
    have hinit : ofDigits base digits = digitsValue base digits :=
      ih fun a ha => h a (List.mem_append_left _ ha)
    have hlast : digitsValue base (digits ++ [c]) = d + base * digitsValue base digits := by
      rw [digitsValue, List.reverse_append, List.reverse_singleton, List.singleton_append,
        List.map_cons, Nat.ofDigits_cons, toDigit_eq hbase hd]
      rfl
    have hfold : ofDigits base (digits ++ [c]) = ofDigits base digits * base + d := by
      rw [ofDigits, List.foldl_append, ← ofDigits, List.foldl_cons, List.foldl_nil, hd,
        Option.getD_some]
    rw [hfold, hlast, hinit]
    ring

theorem ofDigits_zeros (base : Nat) (digits : Str) :
    ofDigits base (digits.dropWhile (· == '0')) = ofDigits base digits := by
  induction digits with
  | nil => rfl
  | cons c digits ih =>
    by_cases hc : c = '0'
    · subst hc
      rw [List.dropWhile_cons_of_pos (by rfl), ih, ofDigits, ofDigits, List.foldl_cons]
      congr 1
      have hzero : (toDigit base '0').getD 0 = 0 := by
        cases h : toDigit base '0' with
        | none => rfl
        | some d =>
          simp [toDigit, Option.filter_eq_some_iff] at h
          exact h.1.symm
      rw [hzero, Nat.zero_mul]
    · rw [List.dropWhile_cons_of_neg (by simpa using hc)]

theorem hexdigit_digit {c : Char} (h : isAsciiHexdigit c = true) : (toDigit 16 c).isSome := by
  have hle : ∀ a b : Char, a ≤ b ↔ a.toNat ≤ b.toNat := fun _ _ => Iff.rfl
  have hnums : '0'.toNat = 48 ∧ '9'.toNat = 57 ∧ 'a'.toNat = 97 ∧ 'f'.toNat = 102 ∧
      'z'.toNat = 122 ∧ 'A'.toNat = 65 ∧ 'F'.toNat = 70 ∧ 'Z'.toNat = 90 := by decide
  obtain ⟨h0, h9, ha, hf, hz, hA, hF, hZ⟩ := hnums
  have hsmall : ∀ d, d < 16 → ((some d).filter (· < 16)).isSome := by
    intro d hd
    rw [Option.filter_some, if_pos (decide_eq_true hd)]
    rfl
  simp only [isAsciiHexdigit, isAsciiDigit, Bool.or_eq_true, Bool.and_eq_true,
    decide_eq_true_eq, hle, h0, h9, ha, hf, hA, hF] at h
  simp only [toDigit, hle, h0, h9, ha, hz, hA, hZ]
  rcases h with (hdigit | hlower) | hupper
  · rw [if_pos hdigit]
    exact hsmall _ (by omega)
  · rw [if_neg (by omega), if_pos (by omega)]
    exact hsmall _ (by omega)
  · rw [if_neg (by omega), if_neg (by omega), if_pos (by omega)]
    exact hsmall _ (by omega)

theorem trimStart_eq {s : Str} (h : ∀ c ∈ s, isWhitespace c = false) : trimStart s = s := by
  cases s with
  | nil => rfl
  | cons c s => exact List.dropWhile_cons_of_neg (by simp [h c List.mem_cons_self])

theorem trim_eq {s : Str} (h : ∀ c ∈ s, isWhitespace c = false) : trim s = s := by
  have hreverse : trimStart s.reverse = s.reverse :=
    trimStart_eq fun c hc => h c (List.mem_reverse.mp hc)
  rw [trim, trimEnd, trimStart_eq h, ← trimStart, hreverse, List.reverse_reverse]

theorem base_le (radix : Radix) : radix.base ≤ 16 := by cases radix <;> decide

theorem finish_ok {negative : Bool} {digits : Str} {radix : Radix} {word : Word}
    (h : finish negative digits radix = .ok word) :
    digits ≠ [] ∧ (∀ c ∈ digits, (toDigit radix.base c).isSome) ∧
      digitsValue radix.base digits ≤ (if negative then 2 ^ 15 else 2 ^ 16 - 1) ∧
      word = BitVec.ofInt 16 (if negative then -(digitsValue radix.base digits : Int)
        else digitsValue radix.base digits) := by
  simp only [finish] at h
  split at h
  · cases h
  · rename_i hne
    split at h
    · cases h
    · rename_i hall
      rw [not_not, List.all_eq_true] at hall
      split at h
      · cases h
      · rename_i magnitude hmagnitude
        have hvalue : magnitude = digitsValue radix.base digits := by
          rw [← ofDigits_eq (base_le radix) hall]
          simp only [fromStrRadix] at hmagnitude
          repeat' first | split at hmagnitude | cases hmagnitude
          rfl
        refine ⟨hne, hall, ?_⟩
        rw [← hvalue]
        cases negative with
        | true =>
          simp only [if_true] at h ⊢
          split at h
          · cases h
          · rename_i hfits
            cases h
            exact ⟨Nat.not_lt.mp hfits, by simp [BitVec.ofInt_neg]⟩
        | false =>
          simp only [Bool.false_eq_true, if_false] at h ⊢
          split at h
          · cases h
          · rename_i hfits
            cases h
            exact ⟨Nat.not_lt.mp hfits, by simp⟩

/-- Without a sign, a literal is its digits. -/
theorem parseWord_unsigned {c : Char} {rest : Str} (radix : Radix)
    (hspace : ∀ d ∈ c :: rest, isWhitespace d = false) (hsign : c ≠ '-') :
    parseWord (c :: rest) radix = finish false (c :: rest) radix := by
  have hsplit : splitSign (c :: rest) = (false, c :: rest) := by
    rw [splitSign, trim_eq hspace]
    split
    · rename_i heq
      cases heq
      exact absurd rfl hsign
    · rfl
  simp only [parseWord, hsplit, Bool.false_eq_true, false_and, if_false]

/-- A literal without whitespace is read as what it writes. -/
theorem parseWord_ok {text : Str} {radix : Radix} {word : Word}
    (hspace : ∀ c ∈ text, isWhitespace c = false) (h : parseWord text radix = .ok word) :
    IsLiteral radix.base text ∧ word = BitVec.ofInt 16 (literalValue radix.base text) := by
  have htrim := trim_eq hspace
  cases text with
  | nil =>
    simp only [parseWord, splitSign, htrim, Bool.false_eq_true, false_and, if_false] at h
    obtain ⟨hne, -⟩ := finish_ok h
    exact absurd rfl hne
  | cons c rest =>
    by_cases hsign : c = '-'
    · subst hsign
      have hrest : trimStart rest = rest :=
        trimStart_eq fun c hc => hspace c (List.mem_cons_of_mem _ hc)
      simp only [parseWord, splitSign, htrim, hrest, true_and] at h
      split at h
      · cases h
      · rename_i hallowed
        obtain ⟨hne, hall, -, hword⟩ := finish_ok h
        have hbase : radix.base = 10 := by
          cases radix <;> simp_all [Radix.allowsSign, Radix.base]
        exact ⟨⟨rest, .inr ⟨hbase, rfl⟩, hne, hall⟩, hword⟩
    · rw [parseWord_unsigned radix hspace hsign] at h
      obtain ⟨hne, hall, -, hword⟩ := finish_ok h
      refine ⟨⟨c :: rest, .inl rfl, hne, hall⟩, ?_⟩
      rw [hword, literalValue]
      · rfl
      · intro digits heq
        cases heq
        exact hsign rfl

/-- The word of a literal without a sign is the number that its digits write. -/
theorem parseWord_digits {c : Char} {rest : Str} {radix : Radix} {word : Word}
    (hspace : ∀ d ∈ c :: rest, isWhitespace d = false) (hsign : c ≠ '-')
    (h : parseWord (c :: rest) radix = .ok word) :
    (∀ d ∈ c :: rest, (toDigit radix.base d).isSome) ∧
      word.toNat = digitsValue radix.base (c :: rest) := by
  rw [parseWord_unsigned radix hspace hsign] at h
  obtain ⟨-, hall, hfits, rfl⟩ := finish_ok h
  simp only [Bool.false_eq_true, if_false] at hfits ⊢
  refine ⟨hall, ?_⟩
  rw [BitVec.ofInt_natCast, BitVec.toNat_ofNat]
  omega

theorem isAddressLiteral_iff {text : Str} :
    IsAddressLiteral text ↔ looksLikeAddressLiteral text = true := by
  cases text with
  | nil => simp [IsAddressLiteral, looksLikeAddressLiteral]
  | cons c rest =>
    simp only [IsAddressLiteral, looksLikeAddressLiteral, Bool.and_eq_true, List.all_eq_true]
    constructor
    · rintro ⟨d, rest', heq, hd, hrest⟩
      cases heq
      exact ⟨hd, hrest⟩
    · rintro ⟨hc, hrest⟩
      exact ⟨c, rest, rfl, hc, hrest⟩

theorem literalAddress_value {text : Str} {address : MemoryAddress} (htext : IsAddressLiteral text)
    (h : literalAddress text = some address) : address.toNat = digitsValue 16 text := by
  have hall : ∀ c ∈ text, (toDigit 16 c).isSome := by
    obtain ⟨c, rest, rfl, hc, hrest⟩ := htext
    intro d hd
    rcases List.mem_cons.mp hd with rfl | hd
    · exact hexdigit_digit (by simp [isAsciiHexdigit, hc])
    · exact hexdigit_digit (hrest d hd)
  have hstrip := ofDigits_zeros 16 text
  rw [ofDigits_eq (le_refl 16) hall] at hstrip
  simp only [literalAddress] at h
  obtain ⟨value, hvalue, haddress⟩ := Option.bind_eq_some_iff.mp h
  rw [MemoryAddress.tryNew_eq_some] at haddress
  rw [← haddress, ← hstrip]
  split at hvalue
  · rename_i hnil
    cases hvalue
    rw [hnil]
    rfl
  · simp only [fromStrRadix] at hvalue
    repeat' first | split at hvalue | cases hvalue
    rfl

theorem eqIgnoreAsciiCase_iff {s t : Str} :
    eqIgnoreAsciiCase s t = true ↔ toAsciiLowercase s = toAsciiLowercase t := by
  rw [eqIgnoreAsciiCase, beq_iff_eq]

theorem classify_opcode {mnemonic : Str} {opcode : Opcode}
    (h : classify (toAsciiLowercase mnemonic) = .opcode opcode) :
    toAsciiLowercase mnemonic = toAsciiLowercase opcode.mnemonic.toList := by
  rw [classify, Opcode.fromMnemonic_lowercase] at h
  cases hop : Opcode.fromMnemonic mnemonic with
  | some found =>
    rw [hop] at h
    cases h
    exact Opcode.fromMnemonic_eq_some.mp hop
  | none =>
    rw [hop] at h
    simp only at h
    split at h <;> cases h

theorem classify_directive {mnemonic : Str} {directive : Directive}
    (h : classify (toAsciiLowercase mnemonic) = .directive directive) :
    Directive.fromMnemonic mnemonic = some directive := by
  have hlower : Directive.fromMnemonic (toAsciiLowercase mnemonic) =
      Directive.fromMnemonic mnemonic := by
    rw [Directive.fromMnemonic, Directive.fromMnemonic, toAsciiLowercase_idem]
  rw [classify] at h
  split at h
  · cases h
  · rw [hlower] at h
    split at h
    · rename_i hfound
      cases h
      exact hfound
    · cases h

theorem fromMnemonic_spelling {mnemonic : Str} {directive : Directive}
    (h : Directive.fromMnemonic mnemonic = some directive) :
    toAsciiLowercase mnemonic = toAsciiLowercase directive.mnemonic.toList := by
  simp only [Directive.fromMnemonic] at h
  generalize toAsciiLowercase mnemonic = lowered at h ⊢
  split_ifs at h with horg hdec hoct hhex hadr hclear hend
  all_goals
    cases h
    subst lowered
    decide

/-- No opcode is spelled like a directive. -/
theorem opcode_spelling {mnemonic : Str} {opcode : Opcode}
    (h : toAsciiLowercase mnemonic = toAsciiLowercase opcode.mnemonic.toList) :
    literalBase mnemonic = none ∧ isClear mnemonic = false := by
  simp only [literalBase, isClear, eqIgnoreAsciiCase, h]
  cases opcode <;> decide

theorem literalWord_means {radix : Radix} {operand : Option Str} {word : Word}
    (hspace : ∀ text, operand = some text → ∀ c ∈ text, isWhitespace c = false)
    (h : literalWord radix operand = .ok word) :
    ∃ text, operand = some text ∧ IsLiteral radix.base text ∧
      word = BitVec.ofInt 16 (literalValue radix.base text) := by
  cases operand with
  | none => cases h
  | some text =>
    simp only [literalWord] at h
    split at h
    · rename_i hparse
      cases h
      exact ⟨text, rfl, parseWord_ok (hspace text rfl) hparse⟩
    · cases h
    · cases h

theorem operandAddress_means {source : Str} {a : Assembly} {labels : Labels} {text : Str}
    {address : MemoryAddress}
    (hlabels : ∀ name value, labels name = some value → ∃ p ∈ a.places,
      labelOn source p.1 = some name ∧ value = p.2 ∧
        ∀ q ∈ a.places, labelOn source q.1 = some name → q = p)
    (h : operandAddress labels text = .ok address) :
    OperandMeans source a text address.toNat := by
  rw [operandAddress] at h
  split at h
  · rename_i hliteral
    have htext := isAddressLiteral_iff.mpr hliteral
    split at h
    · rename_i value hvalue
      cases h
      exact ⟨fun _ => literalAddress_value htext hvalue, fun hnot => absurd htext hnot⟩
    · cases h
  · rename_i hliteral
    split at h
    · rename_i value hvalue
      cases h
      obtain ⟨p, hp, hlabel, rfl, hunique⟩ := hlabels text _ hvalue
      exact ⟨fun htext => absurd (isAddressLiteral_iff.mp htext) hliteral,
        fun _ => ⟨p, hp, hlabel, rfl, hunique⟩⟩
    · cases h

theorem instructionWord_means {source : Str} {a : Assembly} {labels : Labels} {opcode : Opcode}
    {operand : Option Str} {word : Word}
    (hlabels : ∀ name value, labels name = some value → ∃ p ∈ a.places,
      labelOn source p.1 = some name ∧ value = p.2 ∧
        ∀ q ∈ a.places, labelOn source q.1 = some name → q = p)
    (h : instructionWord labels opcode operand = .ok word) :
    ∃ value, word.toNat = opcode.toNibble * 4096 + value ∧
      if opcode.takesOperand then ∃ text, operand = some text ∧ OperandMeans source a text value
      else value = 0 := by
  cases operand with
  | none =>
    simp only [instructionWord] at h
    split at h
    · cases h
    · rename_i htakes
      cases h
      exact ⟨0, Instruction.toNat_encode _, by rw [if_neg htakes]⟩
  | some text =>
    simp only [instructionWord] at h
    split at h
    · cases h
    · rename_i htakes
      split at h
      · rename_i address haddress
        cases h
        refine ⟨address.toNat, Instruction.toNat_encode _, ?_⟩
        rw [if_pos (not_not.mp htakes)]
        exact ⟨text, rfl, operandAddress_means hlabels haddress⟩
      · cases h

theorem takesOperand_iff {opcode : Opcode} :
    opcode.takesOperand = false ↔ opcode = .input ∨ opcode = .output ∨ opcode = .halt := by
  cases opcode <;> decide

theorem literalBase_spelling {mnemonic : Str} {directive : Directive}
    (h : toAsciiLowercase mnemonic = toAsciiLowercase directive.mnemonic.toList) :
    literalBase mnemonic = directive.literalRadix.map Radix.base ∧
      isClear mnemonic = (directive == .clear) := by
  simp only [literalBase, isClear, eqIgnoreAsciiCase, h]
  cases directive <;> decide

theorem wordOf_means {source : Str} {a : Assembly} {labels : Labels} {s : Statement} {word : Word}
    (hspace : ∀ text, s.operand = some text → ∀ c ∈ text, isWhitespace c = false)
    (hlabels : ∀ name value, labels name = some value → ∃ p ∈ a.places,
      labelOn source p.1 = some name ∧ value = p.2 ∧
        ∀ q ∈ a.places, labelOn source q.1 = some name → q = p)
    (h : wordOf labels s = .ok word) : WordMeans source a s word := by
  rw [wordOf] at h
  cases hkind : classify (toAsciiLowercase s.mnemonic) with
  | unknown =>
    simp only [hkind] at h
    cases h
  | opcode opcode =>
    simp only [hkind] at h
    have hspelling := classify_opcode hkind
    obtain ⟨hbase, hclear⟩ := opcode_spelling hspelling
    obtain ⟨value, hvalue, hoperand⟩ := instructionWord_means hlabels h
    simp only [WordMeans, hbase, hclear, Bool.false_eq_true, false_or]
    refine ⟨opcode, value, .inl (eqIgnoreAsciiCase_iff.mpr hspelling), hvalue, ?_⟩
    simp only [← takesOperand_iff]
    cases htakes : opcode.takesOperand with
    | true => simpa [htakes] using hoperand
    | false => simpa [htakes] using hoperand
  | directive directive =>
    have hspelling := fromMnemonic_spelling (classify_directive hkind)
    obtain ⟨hbase, hclear⟩ := literalBase_spelling hspelling
    simp only [hkind] at h
    simp only [WordMeans, hbase, hclear]
    cases directive with
    | org | end_ => cases h
    | dec | oct | hex => exact literalWord_means hspace h
    | adr =>
      obtain ⟨value, hvalue, hoperand⟩ := instructionWord_means hlabels h
      exact ⟨.jnS, value, .inr (.inl ⟨eqIgnoreAsciiCase_iff.mpr hspelling, rfl⟩), hvalue, hoperand⟩
    | clear =>
      have hword : instructionWord labels .loadImmi (some ['0']) =
          .ok (Instruction.encode ⟨.loadImmi, 0⟩) := rfl
      rw [hword] at h
      cases h
      exact ⟨.loadImmi, 0, .inr (.inr ⟨hclear, rfl⟩), Instruction.toNat_encode _, rfl⟩

/-- Without errors, every label of the table stands on the one statement it names. -/
theorem addressOf_places {source : Str} {a : Assembly} {sk : Sketch} {number : Nat}
    (h : Outlines source a sk) (hlaid : Sketch.Laid (shapes source) number sk) {name : Str}
    {value : MemoryAddress} (hvalue : sk.addressOf name = some value) :
    ∃ p ∈ a.places, labelOn source p.1 = some name ∧ value = p.2 ∧
      ∀ q ∈ a.places, labelOn source q.1 = some name → q = p := by
  obtain ⟨⟨address, line⟩, hlabel, rfl⟩ := Option.map_eq_some_iff.mp hvalue
  rw [← h.labels] at hlabel
  obtain ⟨symbol, hsymbol, heq⟩ := Option.map_eq_some_iff.mp hlabel
  cases heq
  obtain ⟨⟨p, -, hunique⟩, hmem, hon⟩ := symbol_place h hlaid hsymbol
  refine ⟨_, hmem, hon, rfl, fun q hq hlabel => ?_⟩
  rw [hunique q ⟨hq, hlabel⟩, ← hunique _ ⟨hmem, hon⟩]

/-- The operand of a placed statement is a word. -/
theorem Sketch.Laid.operand {source : Str} {number : Nat} {sk : Sketch}
    (h : Sketch.Laid (shapes source) number sk) {p : Placed} (hp : p ∈ sk.statements)
    {text : Str} (htext : p.statement.operand = some text) : IsWord text := by
  obtain ⟨-, hshape⟩ := h.line p hp
  rw [shapes, List.getElem?_map] at hshape
  obtain ⟨line, -, hshape⟩ := Option.map_eq_some_iff.mp hshape
  obtain ⟨parts, hvalid, -, hstatement⟩ :=
    parts_of_shape hshape fun name hname => (h.named p hp name hname).2
  exact hvalid.operand (hstatement ▸ htext)

/-- Every word of a program that assembles is the one its statement stands for. -/
theorem assemble_correct (source : Str) (hok : (assemble source).succeeded = true) (i : Nat)
    (item : Item) (hitem : (assemble source).program.items[i]? = some item) :
    ∃ s word, statementOn source item.line = some s ∧ (assemble source).words[i]? = some word ∧
      WordMeans source (assemble source) s word := by
  have h := assemble_outlines source
  have hlaid := sketchOf_laid source
  have hmem := mem_statements h (List.mem_of_getElem? hitem)
  obtain ⟨word, hword, hget⟩ := h.word hok hitem
  exact ⟨(placedOf item).statement, word, hlaid.statementOn hmem, hget,
    wordOf_means (fun text htext => (hlaid.operand hmem htext).no_whitespace)
      (fun name value hvalue => addressOf_places h hlaid hvalue) hword⟩

/-- A reference to a label that is defined later. -/
theorem assemble_correct_forward :
    ∃ item s word, (assemble "load X\nHalt\nX, DEC -5".toList).program.items[0]? = some item ∧
      statementOn "load X\nHalt\nX, DEC -5".toList item.line = some s ∧
      (assemble "load X\nHalt\nX, DEC -5".toList).words[0]? = some word ∧
      WordMeans "load X\nHalt\nX, DEC -5".toList (assemble "load X\nHalt\nX, DEC -5".toList) s
        word := by
  have hok : (assemble "load X\nHalt\nX, DEC -5".toList).succeeded = true := by decide +kernel
  have hsome : (assemble "load X\nHalt\nX, DEC -5".toList).program.items[0]?.isSome = true := by
    decide +kernel
  obtain ⟨item, hitem⟩ := Option.isSome_iff_exists.mp hsome
  obtain ⟨s, word, hcorrect⟩ := assemble_correct _ hok 0 item hitem
  exact ⟨item, s, word, hitem, hcorrect⟩

end MarieRs.Asm
