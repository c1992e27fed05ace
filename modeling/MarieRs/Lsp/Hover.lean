import MarieRs.Lsp.Actions

namespace MarieRs.Lsp

open Asm (Assembly Item MnemonicKind Operand Span Symbol digitsValue looksLikeAddressLiteral)

/-- Markdown over a range. -/
structure Hover where
  value : String
  range : Range
  deriving DecidableEq

/-- What a hover describes. -/
inductive Subject where
  | label (symbol : Symbol)
  | mnemonic (item : Item)
  /-- A literal operand and the value that it is said to have. -/
  | literal (operand : Operand) (value : Nat)
  deriving DecidableEq

/-- Whatever the caret is on. A label is worth more than the line it sits on. -/
def subject (document : Document) (position : Position) (encoding : PositionEncoding) :
    Option Subject :=
  ((document.positions encoding).offset position).bind fun offset =>
    match document.assembly.symbols.findAt offset with
    | some (symbol, _) => some (.label symbol)
    | none =>
      (document.assembly.program.itemAt offset).bind fun item =>
        if item.mnemonic.span.touches offset then some (.mnemonic item)
        else
          (item.operand.filter fun operand =>
            operand.span.touches offset && looksLikeAddressLiteral operand.text).map fun operand =>
              .literal operand ((parseHex (operand.text.dropWhile (· == '0'))).getD 0)

/-- The address an item occupies and the word it assembles to. -/
def describeWord (a : Assembly) (item : Item) : String :=
  match a.program.items.findIdx? fun candidate => candidate.address == item.address with
  | none => ""
  | some index =>
    match a.words[index]? with
    | none => ""
    | some word =>
      "Address `" ++ item.address.display ++ "` — word `0x" ++
        String.ofList (hexPadded 4 word.toNat) ++ "` (" ++ toString word.toInt ++ " decimal)" ++
        match Instruction.decode word with
        | some instruction => "\n\nDecodes as `" ++ instruction.display ++ "`"
        | none => ""

def describeMnemonic (item : Item) : String :=
  match item.mnemonic.kind with
  | .opcode opcode =>
    "**" ++ opcode.mnemonic ++ "** — opcode `0x" ++ String.ofList (hexPadded 1 opcode.toNibble) ++
      "`\n\n" ++ opcode.description
  | .directive directive =>
    "**" ++ directive.mnemonic ++ "** — assembler directive\n\n" ++ directive.description
  | .unknown => "`" ++ String.ofList item.mnemonic.text ++ "` is not a known mnemonic"

def Subject.text (a : Assembly) : Subject → String
  | .label symbol =>
    "**" ++ String.ofList symbol.name ++ "** — label at `" ++ symbol.address.display ++ "`\n\n" ++
      ((a.program.itemAtAddress symbol.address).elim "" (describeWord a)) ++
      "\n\n*" ++ toString symbol.references.length ++ " reference" ++
      (if symbol.references.length = 1 then "" else "s") ++ "*"
  | .mnemonic item => describeMnemonic item ++ "\n\n---\n\n" ++ describeWord a item
  | .literal operand value =>
    "`" ++ String.ofList operand.text ++ "` is **hexadecimal**: `0x" ++
      String.ofList (hexPadded (if value < 16 ^ 3 then 3 else 4) value) ++ "` = " ++
      toString value ++ " decimal\n\n" ++
      "Instruction operands are always hexadecimal, whatever the nearby directives use."

def Subject.span : Subject → Span
  | .label symbol => symbol.definition
  | .mnemonic item => item.mnemonic.span
  | .literal operand _ => operand.span

/-- Describes whatever the caret is on. -/
def hover (document : Document) (position : Position) (encoding : PositionEncoding) :
    Option Hover :=
  (subject document position encoding).map fun subject =>
    ⟨subject.text document.assembly, (document.positions encoding).range subject.span⟩

/-- What the assembler made of an operand: the low twelve bits, or the whole word of a literal. -/
def operandValue (kind : MnemonicKind) (word : Word) : Nat :=
  match kind with
  | .directive .dec | .directive .oct | .directive .hex => word.toNat
  | _ => word.low12Bits.toNat

/-- In decimal and octal at most one digit counts, and what `Clear` ignores is zero or too large
to be read. -/
def ReadInHex (kind : MnemonicKind) (text : Str) : Prop :=
  match kind with
  | .directive .dec | .directive .oct => (text.dropWhile (· == '0')).length ≤ 1
  | .directive .clear => digitsValue 16 text = 0 ∨ 2 ^ 16 ≤ digitsValue 16 text
  | _ => True

theorem subject_literal {document : Document} {position : Position} {encoding : PositionEncoding}
    {operand : Operand} {value : Nat}
    (h : subject document position encoding = some (.literal operand value)) :
    looksLikeAddressLiteral operand.text = true ∧
      value = (parseHex (operand.text.dropWhile (· == '0'))).getD 0 := by
  obtain ⟨offset, -, h⟩ := Option.bind_eq_some_iff.mp h
  split at h
  · cases h
  · obtain ⟨item, -, h⟩ := Option.bind_eq_some_iff.mp h
    split at h
    · cases h
    · obtain ⟨found, hfound, h⟩ := Option.map_eq_some_iff.mp h
      cases h
      obtain ⟨-, hon⟩ := Option.filter_eq_some_iff.mp hfound
      exact ⟨(Bool.and_eq_true _ _ ▸ hon).2, rfl⟩

/-- A literal is worth what it writes in hexadecimal, or nothing if that is too large. -/
theorem parseHex_getD {text : Str} (h : looksLikeAddressLiteral text = true) :
    (parseHex (text.dropWhile (· == '0'))).getD 0 =
      if digitsValue 16 text ≤ 2 ^ 16 - 1 then digitsValue 16 text else 0 := by
  rw [parseHex_literal h]
  by_cases hne : text.dropWhile (· == '0') = []
  · have hzero : digitsValue 16 text = 0 := by
      rw [← Asm.digitsValue_zeros, hne]
      rfl
    simp [hne, hzero]
  · simp only [hne, ne_eq, not_false_eq_true, true_and]
    split <;> rfl

/-- The word of a literal directive is what its operand writes in the directive's base. -/
theorem literalWord_digits {radix : Radix} {text : Str} {word : Word}
    (hliteral : looksLikeAddressLiteral text = true)
    (h : Asm.literalWord radix (some text) = .ok word) :
    (∀ c ∈ text, (toDigit radix.base c).isSome) ∧ word.toNat = digitsValue radix.base text := by
  have hall := List.all_eq_true.mp (Asm.literal_hexdigits hliteral)
  have hspace : ∀ c ∈ text, isWhitespace c = false := by
    intro c hc
    by_contra hnot
    rw [Bool.not_eq_false] at hnot
    exact absurd (hall c hc) (by rw [Asm.whitespace_not_hexdigit hnot]; decide)
  obtain ⟨c, rest, rfl, hc, -⟩ := Asm.isAddressLiteral_iff.mpr hliteral
  have hsign : c ≠ '-' := by
    rintro rfl
    cases hc
  simp only [Asm.literalWord] at h
  split at h
  · rename_i value hvalue
    cases h
    exact Asm.parseWord_digits hspace hsign hvalue
  · cases h
  · cases h

/-- An instruction's word ends in the address that its operand writes. -/
theorem instructionWord_digits {labels : Asm.Labels} {opcode : Opcode} {text : Str} {word : Word}
    (hliteral : looksLikeAddressLiteral text = true)
    (h : Asm.instructionWord labels opcode (some text) = .ok word) :
    digitsValue 16 text < MEMORY_WORD_COUNT ∧ word.low12Bits.toNat = digitsValue 16 text := by
  obtain ⟨-, address, haddress, rfl⟩ := Asm.instructionWord_operand h
  have hvalue := Asm.literalAddress_value (Asm.isAddressLiteral_iff.mpr hliteral)
    (Asm.operandAddress_literal hliteral haddress)
  have hlt := address.isLt
  refine ⟨hvalue ▸ hlt, ?_⟩
  rw [Word.low12Bits_eq, Instruction.newMasked_encode, MemoryAddress.value,
    BitVec.toNat_setWidth, ← hvalue]
  exact Nat.mod_eq_of_lt (hlt.trans (by decide))

/-- The hexadecimal reading of an operand and the word it went into. -/
theorem reading_iff {labels : Asm.Labels} {s : Asm.Statement} {text : Str} {word : Word}
    (htext : s.operand = some text) (hliteral : looksLikeAddressLiteral text = true)
    (h : Asm.wordOf labels s = .ok word) :
    (if digitsValue 16 text ≤ 2 ^ 16 - 1 then digitsValue 16 text else 0) =
        operandValue (Asm.classify (toAsciiLowercase s.mnemonic)) word ↔
      ReadInHex (Asm.classify (toAsciiLowercase s.mnemonic)) text := by
  have hcount : MEMORY_WORD_COUNT ≤ 2 ^ 16 - 1 := by decide
  rw [Asm.wordOf, htext] at h
  generalize Asm.classify (toAsciiLowercase s.mnemonic) = kind at h
  cases kind with
  | unknown => cases h
  | opcode opcode =>
    obtain ⟨hfits, hvalue⟩ := instructionWord_digits hliteral h
    simp only [operandValue, ReadInHex, hvalue, if_pos (hfits.le.trans hcount)]
  | directive directive =>
    cases directive with
    | org | end_ => cases h
    | adr =>
      obtain ⟨hfits, hvalue⟩ := instructionWord_digits hliteral h
      simp only [operandValue, ReadInHex, hvalue, if_pos (hfits.le.trans hcount)]
    | clear =>
      have hzero : word.low12Bits.toNat = 0 := by
        cases h
        decide
      simp only [operandValue, ReadInHex, hzero]
      split <;> omega
    | hex =>
      obtain ⟨-, hvalue⟩ := literalWord_digits hliteral h
      have hfits : digitsValue 16 text ≤ 2 ^ 16 - 1 := Nat.le_of_lt_succ (hvalue ▸ word.isLt)
      simp only [operandValue, ReadInHex, if_pos hfits]
      exact iff_true_intro hvalue.symm
    | dec | oct =>
      obtain ⟨hdigits, hvalue⟩ := literalWord_digits hliteral h
      simp only [operandValue, ReadInHex, hvalue]
      exact Asm.digitsValue_hex_iff (by decide) (by decide) (by decide) hdigits

/-- Hover and assembler agree on a literal exactly if its hexadecimal reading is the one that
its mnemonic asks for. -/
theorem hover_literal {text : Str} {position : Position} {encoding : PositionEncoding}
    {operand : Operand} {value index : Nat} {item : Item} {word : Word}
    (hok : (Asm.assemble text).succeeded = true)
    (hitem : (Asm.assemble text).program.items[index]? = some item)
    (hoperand : item.operand = some operand)
    (hword : (Asm.assemble text).words[index]? = some word)
    (hhover : subject (.new text) position encoding = some (.literal operand value)) :
    value = operandValue item.mnemonic.kind word ↔ ReadInHex item.mnemonic.kind operand.text := by
  have houtlines := Asm.assemble_outlines text
  obtain ⟨hlowercase, hkind⟩ :=
    (houtlines.readItems item (List.mem_of_getElem? hitem)).wellRead
  obtain ⟨found, hfound, hindex⟩ := houtlines.word hok hitem
  rw [hword, Option.some.injEq] at hindex
  subst hindex
  obtain ⟨hliteral, rfl⟩ := subject_literal hhover
  have htext : (Asm.placedOf item).statement.operand = some operand.text := by
    rw [Asm.placedOf, hoperand, Option.map_some]
  rw [parseHex_getD hliteral, hkind, hlowercase]
  exact reading_iff htext hliteral hfound

theorem hover_literal_load :
    ∃ item operand word,
      (Asm.assemble "Load 0A\nHalt".toList).program.items[0]? = some item ∧
      item.operand = some operand ∧
      (Asm.assemble "Load 0A\nHalt".toList).words[0]? = some word ∧
      subject (.new "Load 0A\nHalt".toList) ⟨0, 6⟩ .utf16 = some (.literal operand 10) ∧
      (10 = operandValue item.mnemonic.kind word ↔
        ReadInHex item.mnemonic.kind operand.text) := by
  obtain ⟨item, hitem, hoperand⟩ : ∃ item,
      (Asm.assemble "Load 0A\nHalt".toList).program.items[0]? = some item ∧
      item.operand = some ⟨"0A".toList, ⟨5, 7⟩⟩ := by
    decide +kernel
  have hword : (Asm.assemble "Load 0A\nHalt".toList).words[0]? = some 0x100A := by decide +kernel
  have hhover : subject (.new "Load 0A\nHalt".toList) ⟨0, 6⟩ .utf16 =
      some (.literal ⟨"0A".toList, ⟨5, 7⟩⟩ 10) := by
    decide +kernel
  exact ⟨item, _, _, hitem, hoperand, hword, hhover,
    hover_literal (by decide +kernel) hitem hoperand hword hhover⟩

/-- A decimal literal is described as the hexadecimal number of the same spelling. -/
theorem hover_decimal :
    (Asm.assemble "DEC 10".toList).succeeded = true ∧
      hover (.new "DEC 10".toList) ⟨0, 5⟩ .utf16 = some
        ⟨"`10` is **hexadecimal**: `0x010` = 16 decimal\n\n" ++
          "Instruction operands are always hexadecimal, whatever the nearby directives use.",
          ⟨⟨0, 4⟩, ⟨0, 6⟩⟩⟩ ∧
      ∃ item operand word, (Asm.assemble "DEC 10".toList).program.items[0]? = some item ∧
        item.operand = some operand ∧ (Asm.assemble "DEC 10".toList).words[0]? = some word ∧
        subject (.new "DEC 10".toList) ⟨0, 5⟩ .utf16 = some (.literal operand 16) ∧
        operandValue item.mnemonic.kind word = 10 := by
  refine ⟨by decide +kernel, by decide +kernel, ?_⟩
  obtain ⟨item, hitem, hoperand, hkind⟩ : ∃ item,
      (Asm.assemble "DEC 10".toList).program.items[0]? = some item ∧
      item.operand = some ⟨"10".toList, ⟨4, 6⟩⟩ ∧ item.mnemonic.kind = .directive .dec := by
    decide +kernel
  exact ⟨item, _, 10, hitem, hoperand, by decide +kernel, by decide +kernel, by rw [hkind]; rfl⟩

end MarieRs.Lsp
