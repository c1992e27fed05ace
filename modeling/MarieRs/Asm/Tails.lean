import MarieRs.Asm.Reading

namespace MarieRs.Asm

variable {text : Str} {base : Nat}

theorem charSpan_extend {r : Nat × Nat} (h : Within text r) (rest : Str) :
    charSpan (text ++ rest) base r = charSpan text base r := by
  simp only [charSpan, List.take_append_of_le_length h.2,
    List.take_append_of_le_length (h.1.trans h.2)]

theorem charSpan_suffix (base : Nat) (before rest : Str) :
    charSpan (before ++ rest) base
        ((before ++ rest).length - rest.length, (before ++ rest).length) =
      ⟨base + utf8Len before, base + utf8Len (before ++ rest)⟩ := by
  have hlength : (before ++ rest).length - rest.length = before.length := by
    rw [List.length_append, Nat.add_sub_cancel]
  simp only [charSpan, hlength, List.take_left', List.take_length]

theorem map_charSpan_extend {r : Option (Nat × Nat)} (h : ∀ range ∈ r, Within text range)
    (rest : Str) : r.map (charSpan (text ++ rest) base) = r.map (charSpan text base) := by
  apply Option.map_congr
  intro range hrange
  exact charSpan_extend (h range hrange) rest

/-- A statement line is in parts, and is not an `ORG` line. -/
theorem statement_parts {label : Option Span} {mnemonic : Span} {operand comment : Option Span}
    (h : splitLine text base = .statement label mnemonic operand comment) :
    ∃ p : Parts, p.Sound ∧ p.text = text ∧ p.isOrigin = false ∧
      label = p.labelRange.map (charSpan text base) ∧
      mnemonic = charSpan text base p.mnemonicRange ∧
      operand = p.operandRange.map (charSpan text base) ∧
      comment = (commentRange text.length p.body.tail).map (charSpan text base) := by
  rw [splitLine_rangesOf, rangesOf] at h
  cases htail : isTail text with
  | true =>
    simp only [htail, if_true] at h
    cases h
  | false =>
    simp only [htail, Bool.false_eq_true, if_false] at h
    cases hparts : lexStatement text with
    | none =>
      simp only [hparts] at h
      cases h
    | some p =>
      obtain ⟨rfl, hsound⟩ := lexStatement_sound hparts (not_tail_head htail)
      simp only [hparts, Parts.ranges] at h
      cases horigin : p.isOrigin with
      | true =>
        simp only [horigin, if_true] at h
        cases h
      | false =>
        simp only [horigin, Bool.false_eq_true, if_false] at h
        cases h
        exact ⟨p, hsound, rfl, horigin, rfl, rfl, rfl, rfl⟩

namespace Parts

/-- The same code before another tail. -/
def withTail (p : Parts) (tail : Str) : Parts := { p with body := { p.body with tail } }

@[simp] theorem labelRange_withTail (p : Parts) (tail : Str) :
    (p.withTail tail).labelRange = p.labelRange := rfl

@[simp] theorem mnemonicRange_withTail (p : Parts) (tail : Str) :
    (p.withTail tail).mnemonicRange = p.mnemonicRange := rfl

@[simp] theorem operandRange_withTail (p : Parts) (tail : Str) :
    (p.withTail tail).operandRange = p.operandRange := rfl

@[simp] theorem isOrigin_withTail (p : Parts) (tail : Str) :
    (p.withTail tail).isOrigin = p.isOrigin := rfl

theorem text_append_tail (p : Parts) (rest : Str) :
    (p.withTail (p.body.tail ++ rest)).text = p.text ++ rest := by
  simp [withTail, text, labelText, Body.text, Body.operandText]

theorem Sound.withTail {p : Parts} (h : p.Sound) {tail : Str} (htail : isTail tail = true)
    (hplain : p.body.operand = none → lexOperand tail = some (none, tail)) :
    (p.withTail tail).Sound := by
  have hbody : (p.withTail tail).body.Valid :=
    ⟨h.body.gap, h.body.mnemonic, h.body.operand, htail, hplain⟩
  rcases h with h | h
  · exact .inl ⟨h.lead, h.label, hbody, h.plain⟩
  · exact .inr ⟨h.lead, h.label, hbody⟩

/-- A statement line with more at its end, where that is still a tail. -/
theorem Sound.splitLine_append (base : Nat) {p : Parts} (h : p.Sound) (horigin : p.isOrigin = false)
    {rest : Str} (htail : isTail (p.body.tail ++ rest) = true)
    (hplain : p.body.operand = none →
      lexOperand (p.body.tail ++ rest) = some (none, p.body.tail ++ rest)) :
    splitLine (p.text ++ rest) base = .statement (p.labelRange.map (charSpan p.text base))
      (charSpan p.text base p.mnemonicRange) (p.operandRange.map (charSpan p.text base))
      ((commentRange (p.text ++ rest).length (p.body.tail ++ rest)).map
        (charSpan (p.text ++ rest) base)) := by
  have hranges := rangesOf_parts (h.withTail htail hplain)
  rw [ranges, isOrigin_withTail, horigin, if_neg Bool.false_ne_true, text_append_tail] at hranges
  rw [splitLine_rangesOf, hranges, Ranges.form, labelRange_withTail, mnemonicRange_withTail,
    operandRange_withTail, map_charSpan_extend p.labelRange_within,
    charSpan_extend p.mnemonicRange_within, map_charSpan_extend p.operandRange_within]
  rfl

end Parts

theorem whitespace_tail {tail : Str} (h : isTail tail = true) (hslash : '/' ∉ tail) :
    tail.all isWhitespace = true := by
  have hsplit : tail.takeWhile isWhitespace ++ tail.dropWhile isWhitespace = tail :=
    List.takeWhile_append_dropWhile
  rw [isTail] at h
  cases hrest : tail.dropWhile isWhitespace with
  | nil =>
    rw [hrest, List.append_nil] at hsplit
    rw [← hsplit]
    exact all_takeWhile _ _
  | cons c rest =>
    rw [hrest] at h hsplit
    have hc : c = '/' := by simpa using h
    subst hc
    exact absurd (hsplit ▸ by simp) hslash

/-- After a slash this would be the rest of an operand, and a tail. -/
def ReadsAsOperand (comment : Str) : Prop := isTail (comment.dropWhile isBare) = true

theorem lexOperand_comment {space comment : Str} (hspace : space.all isWhitespace = true)
    (hne : space ≠ []) (hcomment : ¬ ReadsAsOperand comment) :
    lexOperand (space ++ '/' :: comment) = some (none, space ++ '/' :: comment) := by
  have hslash : ∀ c ∈ ('/' :: comment).head?, isWhitespace c = false := by
    intro c hc
    cases hc
    decide
  have hword : isWordChar '/' = true := by decide
  obtain ⟨htake, hdrop⟩ := takeWhile_stop hspace hslash
  rw [ReadsAsOperand] at hcomment
  rw [lexOperand, isTail, htake, hdrop, if_neg hne, lexWord, if_pos hword]
  simp only [if_neg hcomment]
  rfl

theorem isTail_comment {space : Str} (hspace : space.all isWhitespace = true) (comment : Str) :
    isTail (space ++ '/' :: comment) = true := by
  have hslash : ∀ c ∈ ('/' :: comment).head?, isWhitespace c = false := by
    intro c hc
    cases hc
    decide
  rw [isTail, (takeWhile_stop hspace hslash).2]
  rfl

/-- The appended text becomes an operand if there is none, and it reads as one. -/
theorem Parts.Sound.operand_comment (base : Nat) {p : Parts} (h : p.Sound)
    (hnone : p.body.operand = none) (hspace : p.body.tail.all isWhitespace = true) {comment : Str}
    (hcomment : ReadsAsOperand comment) :
    ∃ label mnemonic operand rest, splitLine (p.text ++ ' ' :: '/' :: comment) base =
      .statement label mnemonic (some operand) rest := by
  have hgap : (p.body.tail ++ [' ']).all isWhitespace = true := by
    have hblank : isWhitespace ' ' = true := by decide
    rw [List.all_append, hspace]
    simp [hblank]
  have hword : IsWord ('/' :: comment.takeWhile isBare) :=
    ⟨'/', _, rfl, by decide, all_takeWhile _ _⟩
  have hbody : Body.Valid ⟨p.body.gap, p.body.mnemonic,
      some (p.body.tail ++ [' '], '/' :: comment.takeWhile isBare), comment.dropWhile isBare⟩ := by
    refine ⟨h.body.gap, h.body.mnemonic, ?_, hcomment, by simp⟩
    intro gap word heq
    cases heq
    exact ⟨by simp, hgap, hword⟩
  have hsound : Parts.Sound ⟨p.lead, p.label, ⟨p.body.gap, p.body.mnemonic,
      some (p.body.tail ++ [' '], '/' :: comment.takeWhile isBare), comment.dropWhile isBare⟩⟩ := by
    rcases h with h | h
    · exact .inl ⟨h.lead, h.label, hbody, h.plain⟩
    · exact .inr ⟨h.lead, h.label, hbody⟩
  have htext : Parts.text ⟨p.lead, p.label, ⟨p.body.gap, p.body.mnemonic,
      some (p.body.tail ++ [' '], '/' :: comment.takeWhile isBare), comment.dropWhile isBare⟩⟩ =
        p.text ++ ' ' :: '/' :: comment := by
    simp [Parts.text, Parts.labelText, Body.text, Body.operandText, hnone,
      List.takeWhile_append_dropWhile]
  have hslash : isAsciiHexdigit '/' = false := by decide
  rw [splitLine_rangesOf, ← htext, rangesOf_parts hsound, Parts.ranges, if_neg]
  · exact ⟨_, _, _, _, rfl⟩
  · simp [Parts.isOrigin, hslash]

/-- A comment after a line is seen as one exactly if the line has an operand already or
the comment does not read as one. -/
theorem trailing_comment (line comment : Str) (base : Nat) {label : Option Span} {mnemonic : Span}
    {operand tail : Option Span} (hslash : '/' ∉ line)
    (h : splitLine line base = .statement label mnemonic operand tail) :
    (∃ span, splitLine (line ++ ' ' :: '/' :: comment) base =
        .statement label mnemonic operand (some span) ∧ span.start = base + utf8Len line + 1) ↔
      (operand.isSome = true ∨ ¬ ReadsAsOperand comment) := by
  obtain ⟨p, hsound, rfl, horigin, rfl, rfl, rfl, -⟩ := statement_parts h
  have hspace : p.body.tail.all isWhitespace = true := by
    refine whitespace_tail hsound.body.tail fun hmem => hslash ?_
    simp [Parts.text, Body.text, hmem]
  have hoperand : (p.operandRange.map (charSpan p.text base)).isSome = p.body.operand.isSome := by
    rw [Option.isSome_map, Parts.operandRange, Body.operandRange, Option.isSome_map]
  have hgap : (p.body.tail ++ [' ']).all isWhitespace = true := by
    have hblank : isWhitespace ' ' = true := by decide
    rw [List.all_append, hspace]
    simp [hblank]
  rw [hoperand]
  constructor
  · rintro ⟨span, hspan, -⟩
    by_contra hcondition
    rw [not_or, not_not, Option.not_isSome_iff_eq_none] at hcondition
    obtain ⟨hnone, hreads⟩ := hcondition
    obtain ⟨_, _, _, _, hread⟩ := hsound.operand_comment base hnone hspace hreads
    rw [hspan] at hread
    simp [Parts.operandRange, Body.operandRange, hnone] at hread
  · intro hcondition
    have htail : p.body.tail ++ ' ' :: '/' :: comment =
        (p.body.tail ++ [' ']) ++ '/' :: comment := by simp
    have hplain : p.body.operand = none → lexOperand (p.body.tail ++ ' ' :: '/' :: comment) =
        some (none, p.body.tail ++ ' ' :: '/' :: comment) := by
      intro hnone
      rw [htail]
      refine lexOperand_comment hgap (by simp) ?_
      rcases hcondition with hsome | hreads
      · rw [hnone] at hsome
        cases hsome
      · exact hreads
    have hisTail : isTail (p.body.tail ++ ' ' :: '/' :: comment) = true := by
      rw [htail]
      exact isTail_comment hgap comment
    have hrange : (commentRange (p.text ++ ' ' :: '/' :: comment).length
        (p.body.tail ++ ' ' :: '/' :: comment)) =
          some ((p.text ++ ' ' :: '/' :: comment).length - ('/' :: comment).length,
            (p.text ++ ' ' :: '/' :: comment).length) := by
      have hstop : ∀ c ∈ ('/' :: comment).head?, isWhitespace c = false := by
        intro c hc
        cases hc
        decide
      rw [commentRange, htail, (takeWhile_stop hgap hstop).2]
      rfl
    have hsplit := hsound.splitLine_append base horigin hisTail hplain
    have htext : p.text ++ ' ' :: '/' :: comment = (p.text ++ [' ']) ++ '/' :: comment := by simp
    have hspan := charSpan_suffix base (p.text ++ [' ']) ('/' :: comment)
    have hblank : utf8Len [' '] = 1 := by decide
    rw [hrange, Option.map_some, htext, hspan] at hsplit
    rw [htext]
    refine ⟨_, hsplit, ?_⟩
    rw [utf8Len_append, hblank, Nat.add_assoc]

/-- A line with an operand, before a comment that would read as one. -/
theorem trailing_comment_load :
    ∃ span, splitLine "Load X /note".toList 0 =
      .statement none ⟨0, 4⟩ (some ⟨5, 6⟩) (some span) ∧ span.start = 7 := by
  have hline : splitLine "Load X".toList 0 = .statement none ⟨0, 4⟩ (some ⟨5, 6⟩) none := by
    decide +kernel
  exact (trailing_comment "Load X".toList "note".toList 0 (by decide) hline).mpr (.inl rfl)

/-- Without an operand, the first word after the slash is taken for one. -/
theorem trailing_comment_halt :
    ¬ ∀ (line comment : Str) (base : Nat) (label : Option Span) (mnemonic : Span)
      (operand tail : Option Span), '/' ∉ line → '\n' ∉ comment →
        splitLine line base = .statement label mnemonic operand tail →
          ∃ span, splitLine (line ++ ' ' :: '/' :: comment) base =
            .statement label mnemonic operand (some span) ∧
              span.start = base + utf8Len line + 1 := by
  intro h
  obtain ⟨span, hspan, -⟩ := h "Halt".toList "done".toList 0 none ⟨0, 4⟩ none none (by decide)
    (by decide) (by decide +kernel)
  have hoperand : splitLine "Halt /done".toList 0 =
      .statement none ⟨0, 4⟩ (some ⟨5, 10⟩) none := by decide +kernel
  have hline : "Halt".toList ++ ' ' :: '/' :: "done".toList = "Halt /done".toList := rfl
  rw [hline, hoperand] at hspan
  cases hspan

end MarieRs.Asm
