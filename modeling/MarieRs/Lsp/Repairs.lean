import MarieRs.Asm.Numerals
import MarieRs.Asm.Reading
import MarieRs.Asm.Unknown
import MarieRs.Lint.Revealed
import MarieRs.Lsp.Fixes

namespace MarieRs.Lsp

open Asm (Code Span Item Operand IsWord Repaired located sketchOf placedOf operandOpcode digitsValue
  literalAddress looksLikeAddressLiteral)
open Lint (Level Linter Resembles unrevealed)

variable {text : Str} {levels : Code → Option Level} {defaultLevel : Level} {uri : Uri}
  {range : Range} {encoding : PositionEncoding} {finding : Asm.Diagnostic} {action : CodeAction}

theorem Offered.mem {linter : Linter}
    (h : Offered (.new text linter) uri range encoding finding action) :
    finding ∈ (linter.check text).diagnostics := by
  obtain ⟨index, hindex, -⟩ := h.made
  exact List.mem_of_getElem? hindex

/-- Unknown labels are the assembler's finding, not a lint's. -/
theorem unknown_mem
    (h : finding ∈ ({ Linter.new with levels, defaultLevel }.check text).diagnostics)
    (hcode : finding.code = .UNKNOWN_LABEL) : finding ∈ (Asm.assemble text).diagnostics := by
  rcases Lint.check_cases h with hmem | ⟨lint, hlint, found, hfound, level, rfl⟩
  · exact hmem
  · have hwatched : Lint.Watched ⟨Asm.assemble text, text⟩ := ⟨Asm.assemble_traced text, rfl⟩
    have hnone : ∀ lint ∈ Linter.new.lints, lint.code ≠ .UNKNOWN_LABEL := by decide
    rw [Level.apply_code, (Lint.lints_finds hwatched hlint hfound).code] at hcode
    exact absurd hcode (hnone lint hlint)

/-- Where the operand is looked at, the mnemonic is not `ORG`. -/
theorem not_org {item : Item} (hitem : item ∈ (Asm.assemble text).program.items) {opcode : Opcode}
    (hopcode : operandOpcode item.mnemonic.kind = some opcode) :
    toAsciiLowercase item.mnemonic.text ≠ "org".toList := by
  obtain ⟨hlowercase, hkind⟩ := ((Asm.assemble_outlines text).readItems item hitem).wellRead
  intro horg
  have hnone : operandOpcode (Asm.classify "org".toList) = none := by decide
  rw [hkind, hlowercase, horg, hnone] at hopcode
  cases hopcode

theorem operand_text {item : Item} (hitem : item ∈ (Asm.assemble text).program.items)
    {operand : Operand} (hoperand : item.operand = some operand) :
    operand.span.text text = some operand.text := by
  have hkept := (Asm.assemble_traced text).items item hitem
  rw [hkept.operand operand hoperand]
  exact (hkept.on_operand hoperand).usable.text_eq

/-- An address in the place of an operand. -/
theorem address_repairs {index : Nat} {item : Item} {operand : Operand} {opcode : Opcode}
    {address : MemoryAddress} {word : Str}
    (hitem : (Asm.assemble text).program.items[index]? = some item)
    (hoperand : item.operand = some operand)
    (hopcode : operandOpcode item.mnemonic.kind = some opcode)
    (htakes : opcode.takesOperand = true) (hword : IsWord word)
    (hliteral : looksLikeAddressLiteral word = true)
    (haddress : literalAddress word = some address) :
    ∃ front back, text = front ++ (operand.text ++ back) ∧ operand.text ≠ [] ∧
      operand.span = ⟨utf8Len front, utf8Len front + utf8Len operand.text⟩ ∧
      Asm.Reworded text (front ++ (word ++ back)) item.line word ∧
      Repaired (Asm.assemble text) (Asm.assemble (front ++ (word ++ back))) index
        (Instruction.encode ⟨opcode, address⟩) ∧
      ∃ before after,
        (Asm.assemble text).diagnostics.map located = before ++
          ((Asm.failure (Asm.wordOf (sketchOf text).addressOf (placedOf item).statement)).map
            (fun code => (code, item.line)) ++ after) ∧
        (Asm.assemble (front ++ (word ++ back))).diagnostics.map located = before ++ after ∧
        (Code.UNKNOWN_LABEL, item.line) ∉ before ++ after := by
  have hmem := List.mem_of_getElem? hitem
  have hread := ((Asm.assemble_outlines text).readItems item hmem).wellRead
  have hkind := hopcode
  rw [hread.2, hread.1] at hkind
  obtain ⟨front, back, hsource, hne, hspan, hreworded⟩ :=
    Asm.item_rewording hmem hoperand (not_org hmem hopcode) hword
  refine ⟨front, back, hsource, hne, hspan, hreworded,
    Asm.assemble_rewording hitem hreworded.shapes ?_⟩
  exact Asm.wordOf_literal hkind htakes hliteral haddress

/-- The finding is gone and the one word is there. All else that was found, by the assembler and by
the lints, still is, where and in the order it was; what has come is what the lints can find only
now that the line has its word. -/
structure Repairs (linter : Linter) (source source' : Str) (finding : Asm.Diagnostic) (index : Nat)
    (word : Word) : Prop where
  program : Repaired (Asm.assemble source) (Asm.assemble source') index word
  diagnostics : ∃ front back, (Asm.assemble source).diagnostics = front ++ finding :: back ∧
    (Asm.assemble source').diagnostics.map located = (front ++ back).map located
  findings : ∃ front back, (linter.check source).diagnostics = front ++ finding :: back ∧
    unrevealed finding.line (linter.check source').diagnostics = (front ++ back).map located
  gone : located finding ∉ (linter.check source').diagnostics.map located

/-- A diagnostic that is told by its place. -/
theorem diagnostics_split {diagnostics : List Asm.Diagnostic} {before after : List (Code × Nat)}
    (hmem : finding ∈ diagnostics)
    (hsplit : diagnostics.map located = before ++ (located finding :: after))
    (hone : located finding ∉ before ++ after) :
    ∃ front back, diagnostics = front ++ finding :: back ∧ front.map located = before ∧
      back.map located = after := by
  obtain ⟨front, rest, rfl, rfl, hrest⟩ := List.map_eq_append_iff.mp hsplit
  obtain ⟨found, back, rfl, -, rfl⟩ := List.map_eq_cons_iff.mp hrest
  rw [List.mem_append, not_or] at hone
  rcases List.mem_append.mp hmem with hfront | hback
  · exact absurd (List.mem_map_of_mem hfront) hone.1
  · rcases List.mem_cons.mp hback with rfl | hback
    · exact ⟨front, back, rfl, rfl, rfl⟩
    · exact absurd (List.mem_map_of_mem hback) hone.2

/-- What repairs the program repairs the linted document. -/
theorem repairs_of_resembles {source source' : Str} {index : Nat} {word : Word}
    {earlier later : List Asm.Diagnostic}
    (hresembles : Resembles (Asm.assemble source) (Asm.assemble source') index finding.line)
    (hrepaired : Repaired (Asm.assemble source) (Asm.assemble source') index word)
    (hcode : finding.code = .UNKNOWN_LABEL)
    (hbefore : (Asm.assemble source).diagnostics = earlier ++ finding :: later)
    (hafter : (Asm.assemble source').diagnostics.map located = (earlier ++ later).map located)
    (hone : located finding ∉ (earlier ++ later).map located) :
    Repairs { Linter.new with levels, defaultLevel } source source' finding index word := by
  obtain ⟨found, hfound, hkept⟩ := Lint.check_kept levels defaultLevel hresembles
  refine ⟨hrepaired, ⟨earlier, later, hbefore, hafter⟩, ⟨earlier, later ++ found, ?_, ?_⟩,
    fun hmem => ?_⟩
  · rw [hfound, hbefore, List.append_assoc, List.cons_append]
  · rw [hkept, hafter, ← List.map_append, List.append_assoc]
  · obtain ⟨d, hd, hlocated⟩ := List.mem_map.mp hmem
    have hassembled := unknown_mem hd ((congrArg Prod.fst hlocated).trans hcode)
    rw [← hafter, ← hlocated] at hone
    exact hone (List.mem_map_of_mem hassembled)

/-- The leading-zero fix repairs one error: all else that was found stays, and no other word
changes. -/
theorem unknownLabel_repairs
    (h : Offered (.new text { Linter.new with levels, defaultLevel }) uri range encoding finding
      action) (hcode : finding.code = .UNKNOWN_LABEL) :
    ∃ (index : Nat) (item : Item) (operand : Operand) (opcode : Opcode) (address : MemoryAddress),
      (Asm.assemble text).program.items[index]? = some item ∧ item.operand = some operand ∧
      finding.span = operand.span ∧ operandOpcode item.mnemonic.kind = some opcode ∧
      digitsValue 16 operand.text = address.toNat ∧
      Repairs { Linter.new with levels, defaultLevel } text (action.edit.apply uri encoding text)
        finding index (Instruction.encode ⟨opcode, address⟩) := by
  obtain ⟨f, hfix, happly⟩ := h.apply
  obtain ⟨found, hfound, hfix⟩ := Option.bind_eq_some_iff.mp hfix
  rw [hcode, if_pos rfl] at hfix
  split at hfix
  · rename_i hcondition
    cases hfix
    obtain ⟨⟨hne, hall⟩, hfits⟩ := hcondition
    have hmem := unknown_mem h.mem hcode
    obtain ⟨index, item, operand, opcode, hitem, hunresolved, hspan, hline⟩ :=
      Asm.assemble_unknown hmem hcode
    have hitems := List.mem_of_getElem? hitem
    have htext := operand_text hitems hunresolved.own
    rw [LintedDocument.new_text, hspan, htext, Option.some.injEq] at hfound
    subst hfound
    have hliteral : looksLikeAddressLiteral ('0' :: operand.text) = true := hall
    have hzero : ('0' :: operand.text).all isAsciiHexdigit = true := hall
    have hword : IsWord ('0' :: operand.text) := Asm.bare_isWord (List.cons_ne_nil _ _) <|
      List.all_eq_true.mpr fun c hc => Asm.hexdigit_word (List.all_eq_true.mp hzero c hc)
    obtain ⟨address, haddress, hvalue⟩ := Asm.literalAddress_exists hzero hfits
    have hread := ((Asm.assemble_outlines text).readItems item hitems).wellRead
    obtain ⟨front, back, hsource, -, hplace, hreworded, hrepaired, before, after, hbefore, hafter,
        hone⟩ :=
      address_repairs hitem hunresolved.own hunresolved.kind hunresolved.takes hword hliteral
        haddress
    have hplaced : located finding = (Code.UNKNOWN_LABEL, item.line) := by
      rw [located, hcode, hline]
    rw [hunresolved.word hread, Asm.failure, List.map_singleton, ← hplaced,
      List.singleton_append] at hbefore
    rw [← hplaced] at hone
    obtain ⟨earlier, later, hdiagnostics, rfl, rfl⟩ := diagnostics_split hmem hbefore hone
    refine ⟨index, item, operand, opcode, address, hitem, hunresolved.own, hspan,
      hunresolved.kind, ?_, ?_⟩
    · rw [← hvalue, Asm.digitsValue_cons]
      have hnothing : Asm.digitValue '0' = 0 := by decide
      rw [hnothing, Nat.zero_mul, Nat.zero_add]
    · rw [happly front operand.text back hsource hne (hspan.trans hplace)]
      have hresembles := Lint.reworded_resembles hitem hunresolved hreworded hliteral hrepaired
      rw [← hline] at hresembles
      rw [← List.map_append] at hafter hone
      exact repairs_of_resembles hresembles hrepaired hcode hdiagnostics hafter hone
  · cases hfix

/-- In this text the fix is offered. -/
theorem leadingZero_offered :
    ∃ finding action, finding.code = .UNKNOWN_LABEL ∧
      Offered (.new "Skipcond C01\nHalt".toList .new) "a.mas".toList ⟨⟨0, 9⟩, ⟨0, 9⟩⟩ .utf16 finding
        action ∧
      action.edit = ⟨[("a.mas".toList, [⟨⟨⟨0, 9⟩, ⟨0, 12⟩⟩, "0C01".toList⟩])]⟩ := by
  obtain ⟨d, hd, hcode, hspan⟩ : ∃ d ∈ (LintedDocument.new "Skipcond C01\nHalt".toList .new).findings,
      d.code = .UNKNOWN_LABEL ∧ d.span = ⟨9, 12⟩ := by decide +kernel
  have hfix : fix (.new "Skipcond C01\nHalt".toList .new) d.code d.span =
      some ⟨"Read `C01` as the address `0C01`", ⟨9, 12⟩, "0C01".toList⟩ := by
    rw [hcode, hspan]
    decide +kernel
  have hselected : Selected d (((LintedDocument.new "Skipcond C01\nHalt".toList .new).positions
      .utf16).spanClamped ⟨⟨0, 9⟩, ⟨0, 9⟩⟩) := by
    rw [Selected, hspan]
    decide +kernel
  obtain ⟨action, hoffered, hedit⟩ := offered_of_mem "a.mas".toList hd hselected hfix
  exact ⟨d, action, hcode, hoffered, hedit.trans (by decide +kernel)⟩

theorem unknownLabel_repairs_zero :
    ∃ finding action, finding.code = .UNKNOWN_LABEL ∧
      Offered (.new "Skipcond C01\nHalt".toList .new) "a.mas".toList ⟨⟨0, 9⟩, ⟨0, 9⟩⟩ .utf16 finding
        action ∧
      ∃ index word, Repairs .new "Skipcond C01\nHalt".toList
        (action.edit.apply "a.mas".toList .utf16 "Skipcond C01\nHalt".toList) finding index word := by
  obtain ⟨finding, action, hcode, hoffered, -⟩ := leadingZero_offered
  obtain ⟨index, _, _, _, _, -, -, -, -, -, hrepairs⟩ :=
    @unknownLabel_repairs _ (fun _ => none) .warn _ _ _ _ _ hoffered hcode
  exact ⟨finding, action, hcode, hoffered, index, _, hrepairs⟩

/-- Lints look at the words that are assembled: one that was missing can give them something
to find. -/
theorem unknownLabel_reveals :
    ∃ finding action, finding.code = .UNKNOWN_LABEL ∧
      Offered (.new "Skipcond C01\nHalt".toList .new) "a.mas".toList ⟨⟨0, 9⟩, ⟨0, 9⟩⟩ .utf16 finding
        action ∧
      ∃ d ∈ (LintedDocument.new (action.edit.apply "a.mas".toList .utf16
          "Skipcond C01\nHalt".toList) .new).findings,
        ∀ other ∈ (LintedDocument.new "Skipcond C01\nHalt".toList .new).findings,
          located other ≠ located d := by
  obtain ⟨finding, action, hcode, hoffered, hedit⟩ := leadingZero_offered
  have hfixed : (WorkspaceEdit.mk
      [("a.mas".toList, [⟨⟨⟨0, 9⟩, ⟨0, 12⟩⟩, "0C01".toList⟩])]).apply "a.mas".toList .utf16
        "Skipcond C01\nHalt".toList = "Skipcond 0C01\nHalt".toList := by decide +kernel
  obtain ⟨d, hd, hmasked⟩ : ∃ d ∈ Lint.MaskedSkipcond.run
      ⟨Asm.assemble "Skipcond 0C01\nHalt".toList, "Skipcond 0C01\nHalt".toList⟩,
        d.code = Lint.MASKED_SKIPCOND := by decide +kernel
  have hnone : ∀ other ∈ (LintedDocument.new "Skipcond C01\nHalt".toList .new).findings,
      other.code ≠ Lint.MASKED_SKIPCOND := by decide +kernel
  refine ⟨finding, action, hcode, hoffered, d, ?_, fun other hother hlocated => ?_⟩
  · rw [hedit, hfixed]
    exact Lint.mem_check (by simp [Linter.new, Lint.ALL]) hd
  · exact hnone other hother ((congrArg Prod.fst hlocated).trans hmasked)

/-- The flagged word has become the canonical one with its condition, and that is all. -/
structure KeepsCondition (source source' : Str) (index : Nat) (word : Word) : Prop where
  succeeded : (Asm.assemble source').succeeded = true
  words : (Asm.assemble source').words = (Asm.assemble source).words.set index
    (Instruction.encode
      ⟨.skipCond, (SkipCondition.fromOperand (MemoryAddress.newMasked word)).toOperand⟩)

/-- The condition that the fix reads from the text of an operand. -/
def readCondition (text : Str) : Option SkipCondition :=
  (parseHex (text.dropWhile (· == '0'))).map fun value =>
    SkipCondition.fromOperand (MemoryAddress.newMasked (BitVec.ofNat 16 value))

/-- The operand is a literal, or a label whose name, read as a hexadecimal number, selects the
same condition as its address. -/
def SpellsCondition (a : Asm.Assembly) (text : Str) : Prop :=
  looksLikeAddressLiteral text = true ∨ ∃ address value, a.symbols.addressOf text = some address ∧
    parseHex text = some value ∧
    SkipCondition.fromOperand (MemoryAddress.newMasked (BitVec.ofNat 16 value)) =
      SkipCondition.fromOperand address

theorem canonicalCondition_literal (condition : SkipCondition) :
    IsWord (canonicalCondition condition) ∧
      looksLikeAddressLiteral (canonicalCondition condition) = true ∧
      literalAddress (canonicalCondition condition) = some condition.toOperand := by
  have hword : ∀ condition, (canonicalCondition condition).all Asm.isBare = true := by
    intro condition
    cases condition <;> decide
  have hne : ∀ condition, canonicalCondition condition ≠ [] := by
    intro condition
    cases condition <;> decide
  refine ⟨Asm.bare_isWord (hne condition) (hword condition), ?_⟩
  cases condition <;> decide

/-- The fix reads a literal as the assembler does. -/
theorem readCondition_literal {text : Str} {address : MemoryAddress} {condition : SkipCondition}
    (hliteral : looksLikeAddressLiteral text = true) (haddress : literalAddress text = some address)
    (h : readCondition text = some condition) : condition = SkipCondition.fromOperand address := by
  obtain ⟨value, hvalue, rfl⟩ := Option.map_eq_some_iff.mp h
  have haddress' := Asm.literalAddress_value (Asm.isAddressLiteral_iff.mpr hliteral) haddress
  have hsame : value = address.toNat := by
    rw [haddress', parseHex_value hliteral hvalue]
  subst hsame
  congr 1
  apply BitVec.eq_of_toNat_eq
  have hlt := address.isLt
  rw [MemoryAddress.toNat_newMasked, BitVec.toNat_ofNat]
  omega

/-- It reads a label as its name. -/
theorem readCondition_label {source name : Str} {address : MemoryAddress}
    (h : (sketchOf source).addressOf name = some address) :
    readCondition name = (parseHex name).map fun value =>
      SkipCondition.fromOperand (MemoryAddress.newMasked (BitVec.ofNat 16 value)) := by
  obtain ⟨⟨found, line⟩, hlabel, -⟩ := Option.map_eq_some_iff.mp h
  have hlaid := Asm.sketchOf_laid source
  obtain ⟨p, hp, hname, -⟩ := (hlaid.labels name found line).mp hlabel
  have hdigit := (hlaid.named p hp name hname).1
  have hstart : name.dropWhile (· == '0') = name := by
    cases name with
    | nil => rfl
    | cons c rest =>
      refine List.dropWhile_cons_of_neg fun hzero => ?_
      rw [beq_iff_eq] at hzero
      subst hzero
      cases hdigit
  rw [readCondition, hstart]

/-- A masked condition is found in a `Skipcond`. -/
theorem masked_item (hok : (Asm.assemble text).succeeded = true)
    (h : finding ∈ ({ Linter.new with levels, defaultLevel }.check text).diagnostics)
    (hcode : finding.code = Lint.MASKED_SKIPCOND) :
    ∃ (index : Nat) (item : Item) (operand : Operand) (word : Word),
      (Asm.assemble text).program.items[index]? = some item ∧ item.operand = some operand ∧
      finding.span = operand.span ∧ (Asm.assemble text).words[index]? = some word ∧
      item.mnemonic.kind = .opcode .skipCond := by
  rcases Lint.check_cases h with hmem | ⟨lint, hlint, found, hfound, level, rfl⟩
  · have hnone := (Asm.assemble_outlines text).errors finding hmem
    rw [Asm.Assembly.succeeded, Bool.not_eq_true', List.any_eq_false] at hok
    exact absurd hnone (hok finding hmem)
  · have hwatched : Lint.Watched ⟨Asm.assemble text, text⟩ := ⟨Asm.assemble_traced text, rfl⟩
    have hlints : ∀ lint ∈ Linter.new.lints, lint.code = Lint.MASKED_SKIPCOND →
        lint = Lint.MaskedSkipcond := by
      intro lint hlint hcode
      rcases Lint.mem_lints hlint with
          rfl | rfl | rfl | rfl | rfl | rfl | rfl | rfl | rfl | rfl | rfl | rfl | rfl | rfl <;>
        first | rfl | exact absurd hcode (by decide)
    rw [Level.apply_code, (Lint.lints_finds hwatched hlint hfound).code] at hcode
    obtain rfl := hlints lint hlint hcode
    obtain ⟨index, item, word, operand, hitem, hopcode, hword, -, hoperand, -, hspan, -⟩ :=
      Lint.mem_maskedSkipcond hfound
    refine ⟨index, item, operand, word, hitem, hoperand, ?_, hword, ?_⟩
    · rw [Level.apply_span, hspan]
    · unfold Lint.effectiveOpcode at hopcode
      split at hopcode
      · rename_i opcode hkind
        cases hopcode
        exact hkind
      · cases hopcode
      · cases hopcode

/-- The word of a `Skipcond` is told by the address of its operand. -/
theorem skipCond_word (hok : (Asm.assemble text).succeeded = true) {index : Nat} {item : Item}
    {operand : Operand} {word : Word} (hitem : (Asm.assemble text).program.items[index]? = some item)
    (hoperand : item.operand = some operand) (hword : (Asm.assemble text).words[index]? = some word)
    (hkind : item.mnemonic.kind = .opcode .skipCond) :
    ∃ address, Asm.operandAddress (sketchOf text).addressOf operand.text = .ok address ∧
      word = Instruction.encode ⟨.skipCond, address⟩ := by
  have houtlines := Asm.assemble_outlines text
  have hread := (houtlines.readItems item (List.mem_of_getElem? hitem)).wellRead
  obtain ⟨found, hfound, hindex⟩ := houtlines.word hok hitem
  rw [hword, Option.some.injEq] at hindex
  subst hindex
  have hopcode : operandOpcode (Asm.classify (toAsciiLowercase item.mnemonic.text)) =
      some .skipCond := by
    rw [← hread.1, ← hread.2, hkind]
    rfl
  rw [Asm.wordOf_opcode hopcode, placedOf, hoperand, Option.map_some] at hfound
  exact (Asm.instructionWord_operand hfound).2

/-- A canonical operand keeps a condition if it is for that one. -/
theorem canonical_keeps (hok : (Asm.assemble text).succeeded = true) {index : Nat} {item : Item}
    {operand : Operand} {address : MemoryAddress} (condition : SkipCondition)
    (hitem : (Asm.assemble text).program.items[index]? = some item)
    (hoperand : item.operand = some operand)
    (hword : (Asm.assemble text).words[index]? = some (Instruction.encode ⟨.skipCond, address⟩))
    (hkind : item.mnemonic.kind = .opcode .skipCond) :
    ∃ front back, text = front ++ (operand.text ++ back) ∧ operand.text ≠ [] ∧
      operand.span = ⟨utf8Len front, utf8Len front + utf8Len operand.text⟩ ∧
      (KeepsCondition text (front ++ (canonicalCondition condition ++ back)) index
          (Instruction.encode ⟨.skipCond, address⟩) ↔
        condition = SkipCondition.fromOperand address) := by
  obtain ⟨hisWord, hliteral, haddress⟩ := canonicalCondition_literal condition
  have hopcode : operandOpcode item.mnemonic.kind = some .skipCond := by rw [hkind]; rfl
  obtain ⟨front, back, hsource, hne, hspan, -, hrepaired, before, after, hbefore, hafter, -⟩ :=
    address_repairs hitem hoperand hopcode rfl hisWord hliteral haddress
  refine ⟨front, back, hsource, hne, hspan, ?_⟩
  have hnone : (Asm.assemble text).diagnostics = [] := by
    have hcodes := (Asm.assemble_outlines text).codes
    obtain ⟨hfirst, hsecond⟩ := (Asm.assemble_outlines text).succeeded.mp hok
    rw [hfirst, hsecond, List.append_nil, List.map_eq_nil_iff] at hcodes
    exact hcodes
  rw [hnone, List.map_nil, eq_comm, List.append_eq_nil_iff, List.append_eq_nil_iff] at hbefore
  obtain ⟨rfl, -, rfl⟩ := hbefore
  have hsucceeded : (Asm.assemble (front ++ (canonicalCondition condition ++ back))).succeeded =
      true := by
    rw [List.append_nil, List.map_eq_nil_iff] at hafter
    rw [Asm.Assembly.succeeded, hafter]
    rfl
  have hlt := (List.getElem?_eq_some_iff.mp hword).1
  constructor
  · intro hkeeps
    have hwords := congrArg (·[index]?) (hrepaired.words.symm.trans hkeeps.words)
    simp only [List.getElem?_set_self hlt, Option.some.injEq, Instruction.newMasked_encode]
      at hwords
    have hoperands := congrArg Instruction.operand (Instruction.encode_injective hwords)
    have hconditions := congrArg SkipCondition.fromOperand hoperands
    simpa using hconditions
  · rintro rfl
    refine ⟨hsucceeded, ?_⟩
    rw [Instruction.newMasked_encode]
    exact hrepaired.words

/-- The fix and the assembler read the same condition. -/
theorem readCondition_iff {name : Str} {address : MemoryAddress} {condition : SkipCondition}
    (haddress : Asm.operandAddress (sketchOf text).addressOf name = .ok address)
    (hcondition : readCondition name = some condition) :
    condition = SkipCondition.fromOperand address ↔ SpellsCondition (Asm.assemble text) name := by
  rw [SpellsCondition]
  cases hliteral : looksLikeAddressLiteral name with
  | true =>
    simp only [Asm.operandAddress, hliteral, if_true] at haddress
    cases hfound : literalAddress name with
    | none =>
      simp only [hfound] at haddress
      cases haddress
    | some found =>
      simp only [hfound] at haddress
      cases haddress
      simp only [true_or, iff_true]
      exact readCondition_literal hliteral hfound hcondition
  | false =>
    simp only [Asm.operandAddress, hliteral, Bool.false_eq_true, if_false] at haddress
    cases hfound : (sketchOf text).addressOf name with
    | none =>
      simp only [hfound] at haddress
      cases haddress
    | some found =>
      simp only [hfound] at haddress
      cases haddress
      rw [readCondition_label hfound] at hcondition
      obtain ⟨value, hvalue, rfl⟩ := Option.map_eq_some_iff.mp hcondition
      have hlabel := (Asm.assemble_outlines text).addressOf name
      simp [hlabel, hfound, hvalue]

/-- The fix of a masked condition keeps the condition exactly if it reads it from a literal, or
from a label that happens to spell it. -/
theorem maskedSkipcond_keeps (hok : (Asm.assemble text).succeeded = true)
    (h : Offered (.new text { Linter.new with levels, defaultLevel }) uri range encoding finding
      action) (hcode : finding.code = Lint.MASKED_SKIPCOND) :
    ∃ (index : Nat) (item : Item) (operand : Operand) (word : Word),
      (Asm.assemble text).program.items[index]? = some item ∧ item.operand = some operand ∧
      finding.span = operand.span ∧ (Asm.assemble text).words[index]? = some word ∧
      (KeepsCondition text (action.edit.apply uri encoding text) index word ↔
        SpellsCondition (Asm.assemble text) operand.text) := by
  obtain ⟨index, item, operand, word, hitem, hoperand, hspan, hword, hkind⟩ :=
    masked_item hok h.mem hcode
  refine ⟨index, item, operand, word, hitem, hoperand, hspan, hword, ?_⟩
  obtain ⟨address, haddress, rfl⟩ := skipCond_word hok hitem hoperand hword hkind
  obtain ⟨f, hfix, happly⟩ := h.apply
  obtain ⟨found, hfound, hfix⟩ := Option.bind_eq_some_iff.mp hfix
  rw [LintedDocument.new_text, hspan, operand_text (List.mem_of_getElem? hitem) hoperand,
    Option.some.injEq] at hfound
  subst hfound
  rw [hcode, if_neg (by decide), if_pos rfl] at hfix
  obtain ⟨value, hvalue, rfl⟩ := Option.map_eq_some_iff.mp hfix
  have hcondition : readCondition operand.text = some
      (SkipCondition.fromOperand (MemoryAddress.newMasked (BitVec.ofNat 16 value))) := by
    rw [readCondition, hvalue, Option.map_some]
  generalize SkipCondition.fromOperand (MemoryAddress.newMasked (BitVec.ofNat 16 value)) =
    condition at hcondition happly
  obtain ⟨front, back, hsource, hne, hplace, hkeeps⟩ :=
    canonical_keeps hok condition hitem hoperand hword hkind
  rw [happly front operand.text back hsource hne (hspan.trans hplace), hkeeps]
  exact readCondition_iff haddress hcondition

/-- A masked condition of a text to which the fix is offered. -/
theorem masked_offered (source : Str) (uri : Uri) (range : Range) (encoding : PositionEncoding)
    {span : Span} {replacement : Str} {title : String}
    (hfound : ∃ d ∈ Lint.MaskedSkipcond.run ⟨Asm.assemble source, source⟩,
      d.code = Lint.MASKED_SKIPCOND ∧ d.span = span)
    (hfix : fix (.new source .new) Lint.MASKED_SKIPCOND span = some ⟨title, span, replacement⟩)
    (hselected : span.start ≤ ((positionsOf source encoding).spanClamped range).stop ∧
      ((positionsOf source encoding).spanClamped range).start ≤ span.stop) :
    ∃ finding action, finding.code = Lint.MASKED_SKIPCOND ∧
      Offered (.new source .new) uri range encoding finding action ∧
      action.edit = ⟨[(uri, [⟨(positionsOf source encoding).range span, replacement⟩])]⟩ := by
  obtain ⟨d, hd, hcode, rfl⟩ := hfound
  have hmem : d ∈ (LintedDocument.new source .new).findings :=
    Lint.mem_check (by simp [Linter.new, Lint.ALL]) hd
  rw [← hcode] at hfix
  rw [← LintedDocument.new_positions] at hselected
  obtain ⟨action, hoffered, hedit⟩ := offered_of_mem uri hmem hselected hfix
  rw [LintedDocument.new_positions] at hedit
  exact ⟨d, action, hcode, hoffered, hedit⟩

theorem literal_masked :
    ∃ d ∈ Lint.MaskedSkipcond.run
      ⟨Asm.assemble "Skipcond 401\nHalt".toList, "Skipcond 401\nHalt".toList⟩,
        d.code = Lint.MASKED_SKIPCOND ∧ d.span = ⟨9, 12⟩ := by
  decide +kernel

theorem literal_fix :
    fix (.new "Skipcond 401\nHalt".toList .new) Lint.MASKED_SKIPCOND ⟨9, 12⟩ =
      some ⟨"Change to `Skipcond 400` (AC = 0)", ⟨9, 12⟩, "400".toList⟩ := by
  decide +kernel

theorem maskedSkipcond_keeps_literal :
    ∃ finding action, finding.code = Lint.MASKED_SKIPCOND ∧
      Offered (.new "Skipcond 401\nHalt".toList .new) "a.mas".toList ⟨⟨0, 9⟩, ⟨0, 9⟩⟩ .utf16 finding
        action ∧
      ∃ (index : Nat) (item : Item) (operand : Operand) (word : Word),
        (Asm.assemble "Skipcond 401\nHalt".toList).program.items[index]? = some item ∧
        item.operand = some operand ∧
        (KeepsCondition "Skipcond 401\nHalt".toList
            (action.edit.apply "a.mas".toList .utf16 "Skipcond 401\nHalt".toList) index word ↔
          SpellsCondition (Asm.assemble "Skipcond 401\nHalt".toList) operand.text) := by
  obtain ⟨finding, action, hcode, hoffered, -⟩ :=
    masked_offered "Skipcond 401\nHalt".toList "a.mas".toList ⟨⟨0, 9⟩, ⟨0, 9⟩⟩ .utf16
      literal_masked literal_fix (by decide +kernel)
  obtain ⟨index, item, operand, word, hitem, hoperand, -, -, hkeeps⟩ :=
    @maskedSkipcond_keeps _ (fun _ => none) .warn _ _ _ _ _ (by decide +kernel) hoffered hcode
  exact ⟨finding, action, hcode, hoffered, index, item, operand, word, hitem, hoperand, hkeeps⟩

theorem label_masked :
    ∃ d ∈ Lint.MaskedSkipcond.run
      ⟨Asm.assemble "Skipcond Bad\nBad, Halt".toList, "Skipcond Bad\nBad, Halt".toList⟩,
        d.code = Lint.MASKED_SKIPCOND ∧ d.span = ⟨9, 12⟩ := by
  decide +kernel

theorem label_fix :
    fix (.new "Skipcond Bad\nBad, Halt".toList .new) Lint.MASKED_SKIPCOND ⟨9, 12⟩ =
      some ⟨"Change to `Skipcond 800` (AC > 0)", ⟨9, 12⟩, "800".toList⟩ := by
  decide +kernel

/-- `Bad` is a label at 001, which tests whether the accumulator is negative; read as a number
it is BAD, which tests whether it is positive. -/
theorem maskedSkipcond_label :
    ∃ finding action, (Asm.assemble "Skipcond Bad\nBad, Halt".toList).succeeded = true ∧
      finding.code = Lint.MASKED_SKIPCOND ∧
      Offered (.new "Skipcond Bad\nBad, Halt".toList .new) "a.mas".toList ⟨⟨0, 9⟩, ⟨0, 9⟩⟩ .utf16
        finding action ∧
      (Asm.assemble "Skipcond Bad\nBad, Halt".toList).words[0]? = some 0x8001 ∧
      ¬ KeepsCondition "Skipcond Bad\nBad, Halt".toList
        (action.edit.apply "a.mas".toList .utf16 "Skipcond Bad\nBad, Halt".toList) 0 0x8001 := by
  obtain ⟨finding, action, hcode, hoffered, hedit⟩ :=
    masked_offered "Skipcond Bad\nBad, Halt".toList "a.mas".toList ⟨⟨0, 9⟩, ⟨0, 9⟩⟩ .utf16
      label_masked label_fix (by decide +kernel)
  refine ⟨finding, action, by decide +kernel, hcode, hoffered, by decide +kernel, ?_⟩
  have hfixed : action.edit.apply "a.mas".toList .utf16 "Skipcond Bad\nBad, Halt".toList =
      "Skipcond 800\nBad, Halt".toList := by
    rw [hedit]
    decide +kernel
  intro hkeeps
  have hwords := hkeeps.words
  rw [hfixed] at hwords
  revert hwords
  decide +kernel

end MarieRs.Lsp
