import MarieRs.Asm.Rewording

namespace MarieRs.Asm

theorem operandAddress_space {labels : Labels} {text : Str} {code : Code}
    (h : operandAddress labels text = .error code) : code.space = Code.ASM := by
  rw [operandAddress] at h
  repeat' split at h
  all_goals cases h
  all_goals rfl

theorem instructionWord_space {labels : Labels} {opcode : Opcode} {operand : Option Str}
    {code : Code} (h : instructionWord labels opcode operand = .error code) :
    code.space = Code.ASM := by
  rw [instructionWord.eq_def] at h
  repeat' split at h
  all_goals cases h
  · rfl
  · rfl
  · rename_i hcode
    exact operandAddress_space hcode

theorem literalWord_space {radix : Radix} {operand : Option Str} {code : Code}
    (h : literalWord radix operand = .error code) : code.space = Code.ASM := by
  rw [literalWord.eq_def] at h
  repeat' split at h
  all_goals cases h
  all_goals rfl

/-- Whatever keeps a statement from having a word is the assembler's to report. -/
theorem wordOf_space {labels : Labels} {s : Statement} {code : Code}
    (h : wordOf labels s = .error code) : code.space = Code.ASM := by
  rw [wordOf] at h
  cases hkind : classify (toAsciiLowercase s.mnemonic) with
  | unknown =>
    rw [hkind] at h
    cases h
    rfl
  | opcode opcode =>
    rw [hkind] at h
    exact instructionWord_space h
  | directive directive =>
    rw [hkind] at h
    cases directive with
    | org | end_ =>
      cases h
      rfl
    | adr | clear => exact instructionWord_space h
    | dec | oct | hex => exact literalWord_space h

theorem assemble_space {source : Str} {d : Diagnostic}
    (hd : d ∈ (assemble source).diagnostics) : d.code.space = Code.ASM := by
  have hcodes := List.mem_map_of_mem (f := Diagnostic.code) hd
  rw [(assemble_outlines source).codes] at hcodes
  rcases List.mem_append.mp hcodes with hcode | hcode
  · have hparser : ∀ code ∈ parserCodes, code.space = Code.ASM := by decide
    obtain ⟨new, hnew, hreported⟩ := Sketch.run_reported {} 0 (shapes source)
    have hsketch : (sketchOf source).codes = new := hnew
    exact hparser _ (hreported _ (hsketch ▸ hcode))
  · obtain ⟨p, -, hfailure⟩ := List.mem_flatMap.mp hcode
    cases hword : wordOf (sketchOf source).addressOf p.statement with
    | ok word =>
      rw [hword] at hfailure
      cases hfailure
    | error code =>
      rw [hword, failure, List.mem_singleton] at hfailure
      rw [hfailure]
      exact wordOf_space hword

/-- The operand of an item is looked up, and there is no such label. -/
structure Unresolved (labels : Labels) (item : Item) (operand : Operand) (opcode : Opcode) :
    Prop where
  own : item.operand = some operand
  kind : operandOpcode item.mnemonic.kind = some opcode
  takes : opcode.takesOperand = true
  name : looksLikeAddressLiteral operand.text = false
  unknown : labels operand.text = none

theorem not_unknown {α : Type} {code : Code} (hcode : code ≠ .UNKNOWN_LABEL) :
    (.error code : Except Code α) ≠ .error .UNKNOWN_LABEL :=
  fun h => hcode (Except.error.inj h)

theorem instructionWord_unknown {labels : Labels} {opcode : Opcode} {operand : Option Str}
    (h : instructionWord labels opcode operand = .error .UNKNOWN_LABEL) :
    ∃ text, operand = some text ∧ opcode.takesOperand = true ∧
      looksLikeAddressLiteral text = false ∧ labels text = none := by
  cases operand with
  | none =>
    simp only [instructionWord] at h
    split at h
    · exact absurd h (not_unknown (by decide))
    · cases h
  | some text =>
    simp only [instructionWord] at h
    split at h
    · exact absurd h (not_unknown (by decide))
    · rename_i htakes
      refine ⟨text, rfl, by simpa using htakes, ?_⟩
      cases hliteral : looksLikeAddressLiteral text with
      | true =>
        simp only [operandAddress, hliteral, if_true] at h
        cases haddress : literalAddress text with
        | none =>
          simp only [haddress] at h
          exact absurd h (not_unknown (by decide))
        | some address =>
          simp only [haddress] at h
          cases h
      | false =>
        simp only [operandAddress, hliteral, Bool.false_eq_true, if_false] at h
        cases hlabel : labels text with
        | none => exact ⟨rfl, rfl⟩
        | some address =>
          simp only [hlabel] at h
          cases h

theorem literalWord_unknown (radix : Radix) (operand : Option Str) :
    literalWord radix operand ≠ .error .UNKNOWN_LABEL := by
  intro h
  unfold literalWord at h
  repeat' split at h
  · exact absurd h (not_unknown (by decide))
  · cases h
  · exact absurd h (not_unknown (by decide))
  · exact absurd h (not_unknown (by decide))

theorem wordOf_unknown {labels : Labels} {s : Statement}
    (h : wordOf labels s = .error .UNKNOWN_LABEL) :
    ∃ opcode text, operandOpcode (classify (toAsciiLowercase s.mnemonic)) = some opcode ∧
      s.operand = some text ∧ opcode.takesOperand = true ∧
      looksLikeAddressLiteral text = false ∧ labels text = none := by
  rw [wordOf] at h
  cases hkind : classify (toAsciiLowercase s.mnemonic) with
  | unknown =>
    rw [hkind] at h
    exact absurd h (not_unknown (by decide))
  | opcode opcode =>
    rw [hkind] at h
    obtain ⟨text, htext⟩ := instructionWord_unknown h
    exact ⟨opcode, text, rfl, htext⟩
  | directive directive =>
    rw [hkind] at h
    cases directive with
    | adr =>
      obtain ⟨text, htext⟩ := instructionWord_unknown h
      exact ⟨.jnS, text, rfl, htext⟩
    | clear => cases h
    | org | end_ => exact absurd h (not_unknown (by decide))
    | dec | oct | hex => exact absurd h (literalWord_unknown _ _)

theorem unresolved_of_word {labels : Labels} {item : Item} (hread : WellRead item)
    (h : wordOf labels (placedOf item).statement = .error .UNKNOWN_LABEL) :
    ∃ operand opcode, Unresolved labels item operand opcode := by
  obtain ⟨opcode, text, hopcode, htext, htakes, hname, hunknown⟩ := wordOf_unknown h
  obtain ⟨operand, hoperand, rfl⟩ := Option.map_eq_some_iff.mp htext
  refine ⟨operand, opcode, hoperand, ?_, htakes, hname, hunknown⟩
  rw [hread.2, hread.1]
  exact hopcode

theorem Unresolved.word {labels : Labels} {item : Item} (hread : WellRead item)
    {operand : Operand} {opcode : Opcode} (h : Unresolved labels item operand opcode) :
    wordOf labels (placedOf item).statement = .error .UNKNOWN_LABEL := by
  have hopcode := h.kind
  rw [hread.2, hread.1] at hopcode
  rw [wordOf_opcode hopcode]
  simp only [placedOf, h.own, Option.map_some, instructionWord, h.takes, operandAddress, h.name,
    h.unknown, not_true, if_false, Bool.false_eq_true]

/-- A label that is not there is reported at the operand. -/
theorem Unresolved.reported {item : Item} {operand : Operand} {opcode : Opcode}
    {st : AssembleState} (h : Unresolved st.symbols.addressOf item operand opcode) :
    ∃ d, (assembleItem item st).2.diagnostics = st.diagnostics ++ [d] ∧
      d.span = operand.span ∧ d.line = item.line := by
  have haddress := st.symbols.reference_address operand.text operand.span
  rw [h.unknown] at haddress
  have hresolve : ∃ d, (resolveOperand item operand st).1 = none ∧
      (resolveOperand item operand st).2.diagnostics = st.diagnostics ++ [d] ∧
      d.span = operand.span ∧ d.line = item.line := by
    rw [resolveOperand, h.name]
    generalize st.symbols.reference operand.text operand.span = result at haddress
    obtain ⟨address, symbols⟩ := result
    cases haddress
    exact ⟨_, rfl, rfl, rfl, rfl⟩
  obtain ⟨d, hnone, hdiagnostics, hspan⟩ := hresolve
  refine ⟨d, ?_, hspan⟩
  have hinstruction : resolveAlias item st = (some (opcode, some operand), st) →
      assembleItem item st = assembleInstruction item st →
      (assembleItem item st).2.diagnostics = st.diagnostics ++ [d] := by
    intro halias hitem
    rw [hitem, assembleInstruction, halias]
    simp only [h.takes, not_true, if_false]
    generalize resolveOperand item operand st = result at hnone hdiagnostics
    obtain ⟨address, st'⟩ := result
    cases hnone
    exact hdiagnostics
  have hopcode := h.kind
  cases hkind : item.mnemonic.kind with
  | unknown =>
    rw [hkind] at hopcode
    cases hopcode
  | opcode found =>
    rw [hkind] at hopcode
    cases hopcode
    exact hinstruction (by rw [resolveAlias, hkind, h.own]) (by rw [assembleItem, hkind])
  | directive directive =>
    rw [hkind] at hopcode
    cases directive with
    | adr =>
      cases hopcode
      exact hinstruction (by rw [resolveAlias, hkind, h.own])
        (by simp only [assembleItem, hkind, Directive.literalRadix])
    | org | end_ | clear | dec | oct | hex => cases hopcode

/-- Among all that the second pass reports, unknown labels are reported at operands. -/
theorem assembleItems_unknown {items : List Item} (hread : ∀ item ∈ items, WellRead item)
    (st : AssembleState) :
    ∃ new, (assembleItems items st).2.diagnostics = st.diagnostics ++ new ∧
      ∀ d ∈ new, d.code = .UNKNOWN_LABEL → ∃ item ∈ items, ∃ operand opcode,
        Unresolved st.symbols.addressOf item operand opcode ∧ d.span = operand.span ∧
          d.line = item.line := by
  induction items generalizing st with
  | nil => exact ⟨[], by simp [assembleItems], by simp⟩
  | cons item items ih =>
    have hitem := hread item List.mem_cons_self
    have hleaves := (assembleItem_spec hitem st).2
    obtain ⟨first, hfirst, -, hcodes⟩ := hleaves.reported
    obtain ⟨later, hlater, hunknown⟩ :=
      ih (fun other hother => hread other (List.mem_cons_of_mem _ hother)) (assembleItem item st).2
    rw [hleaves.addressOf] at hunknown
    refine ⟨first ++ later, ?_, fun d hd hcode => ?_⟩
    · rw [← List.append_assoc, ← hfirst, ← hlater]
      rfl
    · rcases List.mem_append.mp hd with hd | hd
      · have hfailure : Code.UNKNOWN_LABEL ∈
            failure (wordOf st.symbols.addressOf (placedOf item).statement) := by
          rw [← hcodes, ← hcode]
          exact List.mem_map_of_mem hd
        have hword : wordOf st.symbols.addressOf (placedOf item).statement =
            .error .UNKNOWN_LABEL := by
          cases houtcome : wordOf st.symbols.addressOf (placedOf item).statement with
          | ok word =>
            rw [houtcome] at hfailure
            cases hfailure
          | error code =>
            rw [houtcome] at hfailure
            rw [List.mem_singleton.mp hfailure]
        obtain ⟨operand, opcode, hunresolved⟩ := unresolved_of_word hitem hword
        obtain ⟨d', hreported, hspan, hline⟩ := hunresolved.reported
        rw [hfirst, List.append_cancel_left_eq] at hreported
        rw [hreported, List.mem_singleton] at hd
        subst hd
        exact ⟨item, List.mem_cons_self, operand, opcode, hunresolved, hspan, hline⟩
      · obtain ⟨other, hother, hfound⟩ := hunknown d hd hcode
        exact ⟨other, List.mem_cons_of_mem _ hother, hfound⟩

/-- The same for a whole source: the first pass knows of no unknown labels. -/
theorem assemble_unknown {source : Str} {d : Diagnostic} (hd : d ∈ (assemble source).diagnostics)
    (hcode : d.code = .UNKNOWN_LABEL) :
    ∃ (index : Nat) (item : Item) (operand : Operand) (opcode : Opcode),
      (assemble source).program.items[index]? = some item ∧
      Unresolved (sketchOf source).addressOf item operand opcode ∧ d.span = operand.span ∧
      d.line = item.line := by
  have houtlines := assemble_outlines source
  obtain ⟨st, hparse, hrefines⟩ := parse_refines source
  have hread : ∀ item ∈ st.out.program.items, WellRead item :=
    fun item hitem => (hrefines.readItems item hitem).wellRead
  have haddressOf := hrefines.addressOf
  obtain ⟨new, hnew, hunknown⟩ := assembleItems_unknown hread ⟨st.out.symbols, st.diagnostics⟩
  simp only [assemble, hparse] at hd ⊢
  rw [hnew] at hd
  rcases List.mem_append.mp hd with hd | hd
  · have hlocated : located d ∈ (parse source).2.map located := by
      rw [hparse]
      exact List.mem_map_of_mem hd
    rw [parse_located] at hlocated
    exact absurd hcode (reports_unknown 0 _ _ _ hlocated)
  · obtain ⟨item, hitem, operand, opcode, hunresolved, hspan, hline⟩ := hunknown d hd hcode
    obtain ⟨index, hindex⟩ := List.mem_iff_getElem?.mp hitem
    exact ⟨index, item, operand, opcode, hindex, haddressOf ▸ hunresolved, hspan, hline⟩

end MarieRs.Asm
