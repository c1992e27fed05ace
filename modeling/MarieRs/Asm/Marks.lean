import MarieRs.Asm.Meaning
import MarieRs.Asm.Rewording
import MarieRs.Asm.Tails

namespace MarieRs.Asm

def BYTE_ORDER_MARK : Char := Char.ofNat 0xFEFF

/-- `\s` -/
def jsWhitespace (c : Char) : Bool :=
  let n := c.toNat
  (0x09 ≤ n && n ≤ 0x0D) || n == 0x20 || n == 0xA0 || n == 0x1680 ||
    (0x2000 ≤ n && n ≤ 0x200A) || n == 0x2028 || n == 0x2029 || n == 0x202F ||
    n == 0x205F || n == 0x3000 || n == 0xFEFF

/-- A run of such characters within a line. -/
structure Leading (run : Str) : Prop where
  space : run.all jsWhitespace = true
  newline : '\n' ∉ run

def insertLeading (run : Str) (number : Nat) (source : Str) : Str :=
  List.intercalate ['\n'] ((source.splitOn '\n').modify number (run ++ ·))

/-- The same program, with the same faults. -/
structure Unchanged (a a' : Assembly) : Prop extends SameProgram a a' where
  codes : a.diagnostics.map Diagnostic.code = a'.diagnostics.map Diagnostic.code

/-- Rust knows all of these characters as whitespace but the byte order mark. -/
theorem jsWhitespace_cases {c : Char} (h : jsWhitespace c = true) :
    c = BYTE_ORDER_MARK ∨ isWhitespace c = true := by
  by_cases hmark : c.toNat = 0xFEFF
  · left
    rw [← Char.ofNat_toNat c, hmark]
    rfl
  · right
    simp only [jsWhitespace, isWhitespace, Bool.or_eq_true, Bool.and_eq_true, decide_eq_true_eq,
      beq_iff_eq] at h ⊢
    omega

theorem mark_bare : isBare BYTE_ORDER_MARK = true := by decide

theorem mark_label : isLabelChar BYTE_ORDER_MARK = true := by decide

theorem mark_not_whitespace : isWhitespace BYTE_ORDER_MARK = false := by decide

namespace Leading

variable {run : Str}

theorem whitespace (h : Leading run) (hmark : BYTE_ORDER_MARK ∉ run) :
    run.all isWhitespace = true := by
  apply List.all_eq_true.mpr
  intro c hc
  rcases jsWhitespace_cases (List.all_eq_true.mp h.space c hc) with rfl | hspace
  · exact absurd hc hmark
  · exact hspace

/-- The first mark ends what the lexer skips. -/
theorem split (h : Leading run) (hmark : BYTE_ORDER_MARK ∈ run) :
    ∃ before after, run = before ++ BYTE_ORDER_MARK :: after ∧ before.all isWhitespace = true ∧
      after.all isLabelChar = true := by
  obtain ⟨before, after, rfl, hnone⟩ := List.eq_append_cons_of_mem hmark
  have hspace := List.all_eq_true.mp h.space
  refine ⟨before, after, rfl, ?_, ?_⟩
  · apply List.all_eq_true.mpr
    intro c hc
    rcases jsWhitespace_cases (hspace c (List.mem_append_left _ hc)) with rfl | hother
    · exact absurd hc hnone
    · exact hother
  · apply List.all_eq_true.mpr
    intro c hc
    have hmem : c ∈ before ++ BYTE_ORDER_MARK :: after := by simp [hc]
    rcases jsWhitespace_cases (hspace c hmem) with rfl | hother
    · exact mark_label
    · exact whitespace_label hother

end Leading

theorem Parts.Sound.indent {p : Parts} (h : p.Sound) {run : Str}
    (hrun : run.all isWhitespace = true) :
    ({ p with lead := run ++ p.lead } : Parts).Sound := by
  have hlead : (run ++ p.lead).all isWhitespace = true := by
    rw [List.all_append, hrun, h.lead]
    rfl
  rcases h with h | h
  · exact .inl ⟨hlead, h.label, h.body, h.plain⟩
  · exact .inr ⟨hlead, h.label, h.body⟩

section Indent

variable {text : Str}

/-- But where it finds a line malformed, whitespace can turn into a label. -/
theorem shapeOf_indent {run : Str} (hrun : run.all isWhitespace = true)
    (hform : shapeOf text ≠ .malformed) : shapeOf (run ++ text) = shapeOf text := by
  have htail : isTail (run ++ text) = isTail text := by
    rw [isTail, isTail, List.dropWhile_append_of_pos (List.all_eq_true.mp hrun)]
  rw [shapeOf_eq, htail]
  rw [shapeOf_eq] at hform ⊢
  cases hblank : isTail text with
  | true => rfl
  | false =>
    rw [hblank] at hform
    cases hparts : lexStatement text with
    | none =>
      rw [hparts] at hform
      exact absurd rfl hform
    | some p =>
      obtain ⟨rfl, hsound⟩ := lexStatement_sound hparts (not_tail_head hblank)
      have htext : run ++ p.text = ({ p with lead := run ++ p.lead } : Parts).text := by
        rw [Parts.text, Parts.text, List.append_assoc]
        rfl
      rw [htext, lexStatement_text (hsound.indent hrun)]
      rfl

/-- A line that the lexer knows has a label, or no comma in its code. -/
theorem shapeOf_cases (hform : shapeOf text ≠ .malformed) :
    (NoComma text ∧ ∀ s, shapeOf text = .statement s → s.label = none) ∨
      ∃ p name, Parts.Sound p ∧ text = p.text ∧ p.label = some name ∧
        shapeOf text = .statement p.statement := by
  rw [shapeOf_eq] at hform ⊢
  cases hblank : isTail text with
  | true =>
    rw [if_pos rfl]
    exact .inl ⟨noComma_tail hblank, fun s hs => by cases hs⟩
  | false =>
    rw [hblank, if_neg Bool.false_ne_true] at hform
    rw [if_neg Bool.false_ne_true]
    cases hparts : lexStatement text with
    | none =>
      rw [hparts] at hform
      exact absurd rfl hform
    | some p =>
      obtain ⟨rfl, hsound⟩ := lexStatement_sound hparts (not_tail_head hblank)
      cases hlabel : p.label with
      | none =>
        left
        constructor
        · rw [Parts.text, Parts.labelText, hlabel]
          exact hsound.body.noComma.append (all_label hsound.lead)
        · intro s hs
          change p.shape = .statement s at hs
          rw [Parts.shape] at hs
          split at hs
          · cases hs
          · cases hs
            exact hlabel
      | some name =>
        refine .inr ⟨p, name, hsound, rfl, hlabel, ?_⟩
        simp only [Parts.shape, Parts.isOrigin, hlabel, Option.isNone_some, Bool.false_and,
          Bool.false_eq_true, if_false]

end Indent

section Mark

variable {before after text : Str} (hbefore : before.all isWhitespace = true)
  (hafter : after.all isLabelChar = true)

include hbefore

theorem dropWhile_mark (rest : Str) :
    (before ++ BYTE_ORDER_MARK :: rest).takeWhile isWhitespace = before ∧
      (before ++ BYTE_ORDER_MARK :: rest).dropWhile isWhitespace = BYTE_ORDER_MARK :: rest := by
  apply takeWhile_stop hbefore
  intro c hc
  cases hc
  exact mark_not_whitespace

include hafter

/-- In front of a label it becomes part of the name, with the whitespace around it. -/
theorem shapeOf_mark_label {p : Parts} (h : p.Sound) {name : Str} (hlabel : p.label = some name) :
    shapeOf (before ++ BYTE_ORDER_MARK :: after ++ p.text) = .statement
      ⟨some (BYTE_ORDER_MARK :: after ++ p.lead ++ name), p.body.mnemonic,
        p.body.operand.map Prod.snd⟩ := by
  let marked : Parts := ⟨before, some (BYTE_ORDER_MARK :: after ++ p.lead ++ name), p.body⟩
  have hname : (BYTE_ORDER_MARK :: after ++ p.lead ++ name).all isLabelChar = true := by
    rw [List.all_append, List.all_append, List.all_cons, mark_label, hafter, all_label h.lead,
      (h.label hlabel).2]
    rfl
  have hvalid : marked.Valid := by
    refine ⟨hbefore, ?_, h.body, fun hnone => by cases hnone⟩
    intro other hother
    cases hother
    refine ⟨by simp, hname, ?_⟩
    intro c hc
    cases hc
    exact mark_not_whitespace
  have htext : before ++ BYTE_ORDER_MARK :: after ++ p.text = marked.text := by
    rw [Parts.text, Parts.text, Parts.labelText, Parts.labelText, hlabel]
    simp [marked]
  have hsound : marked.Sound := .inl hvalid
  rw [htext, shapeOf_eq, hsound.not_tail, lexStatement_text hsound]
  rfl

/-- In front of anything else it becomes part of an operator. -/
theorem shapeOf_mark_plain (h : NoComma text) :
    shapeOf (before ++ BYTE_ORDER_MARK :: after ++ text) = .malformed ∨ ∃ rest operand,
      shapeOf (before ++ BYTE_ORDER_MARK :: after ++ text) =
        .statement ⟨none, BYTE_ORDER_MARK :: rest, operand⟩ := by
  have hmarked : before ++ BYTE_ORDER_MARK :: after ++ text =
      before ++ BYTE_ORDER_MARK :: (after ++ text) := by simp
  obtain ⟨htake, hdrop⟩ := dropWhile_mark hbefore (after ++ text)
  have htail : isTail (before ++ BYTE_ORDER_MARK :: (after ++ text)) = false := by
    rw [isTail, hdrop]
    exact beq_eq_false_iff_ne.mpr (by decide)
  have hall : (BYTE_ORDER_MARK :: after).all isLabelChar = true := by
    rw [List.all_cons, mark_label, hafter]
    rfl
  have hlabel : lexLabel (BYTE_ORDER_MARK :: (after ++ text)) = none := (h.append hall).lexLabel
  have hearly : lexEarly (before ++ BYTE_ORDER_MARK :: (after ++ text)) = none := by
    rw [lexEarly, hdrop]
    split
    · rename_i hcomma
      cases hcomma
    · rfl
  have hbody : lexBody (BYTE_ORDER_MARK :: (after ++ text)) =
      (lexOperand ((after ++ text).dropWhile isBare)).map fun found =>
        ⟨[], BYTE_ORDER_MARK :: (after ++ text).takeWhile isBare, found.1, found.2⟩ := by
    have hword : isWordChar BYTE_ORDER_MARK = true := bare_word mark_bare
    have hnot : ¬isWhitespace BYTE_ORDER_MARK = true := by decide
    rw [lexBody, List.dropWhile_cons_of_neg hnot, lexWord, if_pos hword,
      List.takeWhile_cons_of_neg hnot]
  have hstatement : lexStatement (before ++ BYTE_ORDER_MARK :: (after ++ text)) =
      (lexBody (BYTE_ORDER_MARK :: (after ++ text))).map fun body => ⟨before, none, body⟩ := by
    simp only [lexStatement, lexLine, htake, hdrop, hlabel, hearly, Option.bind_none,
      Option.or_none]
  rw [hmarked, shapeOf_eq, htail, hstatement, hbody]
  cases lexOperand ((after ++ text).dropWhile isBare) with
  | none => exact .inl rfl
  | some found =>
    refine .inr ⟨(after ++ text).takeWhile isBare, found.1.map Prod.snd, ?_⟩
    have horg : (toAsciiLowercase (BYTE_ORDER_MARK :: (after ++ text).takeWhile isBare) ==
        "org".toList) = false := by
      apply beq_eq_false_iff_ne.mpr
      intro heq
      exact absurd (List.cons.inj heq).1 (by decide)
    simp only [Option.map_some, Parts.shape, Parts.isOrigin, horg, Bool.and_false, Bool.false_and,
      Bool.false_eq_true, if_false]
    rfl

end Mark

/-- No operator begins with the mark. -/
theorem classify_mark (rest : Str) :
    classify (toAsciiLowercase (BYTE_ORDER_MARK :: rest)) = .unknown := by
  have hhead : (toAsciiLowercase (BYTE_ORDER_MARK :: rest)).head? = some BYTE_ORDER_MARK := by
    have hlower : BYTE_ORDER_MARK.toLower = BYTE_ORDER_MARK := by decide
    rw [toAsciiLowercase, List.map_cons, hlower]
    rfl
  cases hkind : classify (toAsciiLowercase (BYTE_ORDER_MARK :: rest)) with
  | unknown => rfl
  | opcode opcode =>
    rw [classify_opcode hkind] at hhead
    cases opcode <;> exact absurd hhead (by decide)
  | directive directive =>
    rw [fromMnemonic_spelling (classify_directive hkind)] at hhead
    cases directive <;> exact absurd hhead (by decide)

/-- The second pass knows no operator of this name. `ORG` is one only on a line of its own form. -/
def noOperator (s : Statement) : Bool :=
  match classify (toAsciiLowercase s.mnemonic) with
  | .unknown | .directive .org => true
  | .opcode _ | .directive _ => false

theorem isEnd_iff (s : Statement) :
    isEnd s = true ↔ classify (toAsciiLowercase s.mnemonic) = .directive .end_ := by
  rw [isEnd, beq_iff_eq]
  constructor
  · intro hend
    rw [hend]
    decide
  · intro hkind
    rw [fromMnemonic_spelling (classify_directive hkind)]
    decide

theorem noOperator_isEnd {s : Statement} (h : noOperator s = true) : isEnd s = false := by
  rw [Bool.eq_false_iff, ne_eq, isEnd_iff]
  intro hkind
  rw [noOperator, hkind] at h
  cases h

theorem wordOf_noOperator (labels : Labels) {s : Statement} (h : noOperator s = true) :
    wordOf labels s = .error .UNKNOWN_MNEMONIC := by
  rw [noOperator] at h
  rw [wordOf]
  split at h
  · rename_i hkind
    rw [hkind]
  · rename_i hkind
    rw [hkind]
  · cases h
  · cases h

theorem noOperator_mark (label : Option Str) (rest : Str) (operand : Option Str) :
    noOperator ⟨label, BYTE_ORDER_MARK :: rest, operand⟩ = true := by
  rw [noOperator, classify_mark]

theorem literalWord_failure {radix : Radix} {operand : Option Str} {code : Code}
    (h : literalWord radix operand = .error code) :
    code ∉ Code.UNKNOWN_MNEMONIC :: parserCodes := by
  rw [literalWord.eq_def] at h
  repeat' split at h
  all_goals cases h
  all_goals decide

theorem operandAddress_failure {labels : Labels} {text : Str} {code : Code}
    (h : operandAddress labels text = .error code) :
    code ∉ Code.UNKNOWN_MNEMONIC :: parserCodes := by
  rw [operandAddress] at h
  repeat' split at h
  all_goals cases h
  all_goals decide

theorem instructionWord_failure {labels : Labels} {opcode : Opcode} {operand : Option Str}
    {code : Code} (h : instructionWord labels opcode operand = .error code) :
    code ∉ Code.UNKNOWN_MNEMONIC :: parserCodes := by
  rw [instructionWord.eq_def] at h
  repeat' split at h
  all_goals cases h
  · decide
  · decide
  · rename_i hcode
    exact operandAddress_failure hcode

theorem wordOf_operator {labels : Labels} {s : Statement} {code : Code}
    (hoperator : noOperator s = false) (hend : isEnd s = false)
    (h : wordOf labels s = .error code) : code ∉ Code.UNKNOWN_MNEMONIC :: parserCodes := by
  rw [wordOf] at h
  rw [noOperator] at hoperator
  cases hkind : classify (toAsciiLowercase s.mnemonic) with
  | unknown =>
    rw [hkind] at hoperator
    cases hoperator
  | opcode opcode =>
    rw [hkind] at h
    exact instructionWord_failure h
  | directive directive =>
    rw [hkind] at h hoperator
    cases directive with
    | org => cases hoperator
    | end_ =>
      rw [(isEnd_iff s).mpr hkind] at hend
      cases hend
    | adr | clear => exact instructionWord_failure h
    | dec | oct | hex => exact literalWord_failure h

theorem wordOf_failure {labels : Labels} {s : Statement} {code : Code}
    (h : wordOf labels s = .error code) : code ∉ parserCodes := by
  cases hoperator : noOperator s with
  | true =>
    rw [wordOf_noOperator labels hoperator] at h
    cases h
    decide
  | false =>
    cases hend : isEnd s with
    | true =>
      rw [wordOf, (isEnd_iff s).mp hend] at h
      cases h
      decide
    | false =>
      have hlater := wordOf_operator hoperator hend h
      exact fun hcode => hlater (List.mem_cons_of_mem _ hcode)

theorem mem_failures {sk : Sketch} {code : Code} (h : code ∈ sk.failures) : code ∉ parserCodes := by
  obtain ⟨p, -, hcode⟩ := List.mem_flatMap.mp h
  cases hword : wordOf sk.addressOf p.statement with
  | ok word =>
    rw [hword] at hcode
    cases hcode
  | error found =>
    rw [hword] at hcode
    rw [List.mem_singleton.mp hcode]
    exact wordOf_failure hword

/-- Nothing else is taken for an operator that there is not. -/
theorem noOperator_of_failure {labels : Labels} {s : Statement} (hend : isEnd s = false)
    (h : failure (wordOf labels s) = [.UNKNOWN_MNEMONIC]) : noOperator s = true := by
  have hword : wordOf labels s = .error .UNKNOWN_MNEMONIC := by
    cases hword : wordOf labels s with
    | ok word =>
      rw [hword] at h
      cases h
    | error code =>
      rw [hword] at h
      cases h
      rfl
  by_contra hoperator
  have hnot := wordOf_operator (Bool.eq_false_iff.mpr hoperator) hend hword
  exact hnot List.mem_cons_self

end MarieRs.Asm
