import MarieRs.Asm.Reports
import MarieRs.Asm.Tails

namespace MarieRs.Asm

theorem takeWhile_concat {p : Char → Bool} {c : Char} {s : Str}
    (h : s.dropWhile p = [] → p c = false) :
    (s ++ [c]).takeWhile p = s.takeWhile p ∧ (s ++ [c]).dropWhile p = s.dropWhile p ++ [c] := by
  have hsplit : s.takeWhile p ++ s.dropWhile p = s := List.takeWhile_append_dropWhile
  have hstop : ∀ d ∈ (s.dropWhile p ++ [c]).head?, p d = false := by
    intro d hd
    cases hrest : s.dropWhile p with
    | nil =>
      rw [hrest] at hd
      cases hd
      exact h hrest
    | cons e rest =>
      rw [hrest] at hd
      exact head_dropWhile p s d (by rw [hrest]; exact hd)
  have htake := takeWhile_stop (all_takeWhile p s) hstop
  rw [← List.append_assoc, hsplit] at htake
  exact htake

variable {c : Char} (hc : isWhitespace c = true)

include hc

theorem dropWhile_blank {s : Str} (hs : s.dropWhile isWhitespace = []) :
    (s ++ [c]).takeWhile isWhitespace = s ++ [c] ∧ (s ++ [c]).dropWhile isWhitespace = [] := by
  have hall : ∀ d ∈ s ++ [c], isWhitespace d = true := by
    intro d hd
    rcases List.mem_append.mp hd with hd | hd
    · exact List.dropWhile_eq_nil_iff.mp hs d hd
    · rw [List.mem_singleton.mp hd]
      exact hc
  exact ⟨List.takeWhile_eq_self_iff.mpr hall, List.dropWhile_eq_nil_iff.mpr hall⟩

theorem isTail_concat (s : Str) : isTail (s ++ [c]) = isTail s := by
  by_cases hs : s.dropWhile isWhitespace = []
  · rw [isTail, isTail, hs, (dropWhile_blank hc hs).2]
  · rw [isTail, isTail, (takeWhile_concat fun hnil => absurd hnil hs).2]
    cases hrest : s.dropWhile isWhitespace with
    | nil => exact absurd hrest hs
    | cons d rest => rfl

theorem lexWord_concat (s : Str) :
    lexWord (s ++ [c]) = (lexWord s).map fun found => (found.1, found.2 ++ [c]) := by
  cases s with
  | nil => simp [lexWord, whitespace_not_word hc]
  | cons d s =>
    obtain ⟨htake, hdrop⟩ :=
      takeWhile_concat (s := s) fun _ => whitespace_not_bare hc
    rw [List.cons_append, lexWord, lexWord, htake, hdrop]
    split <;> rfl

theorem lexOperand_concat (s : Str) :
    lexOperand (s ++ [c]) = (lexOperand s).map fun found => (found.1, found.2 ++ [c]) := by
  by_cases hs : s.dropWhile isWhitespace = []
  · have hplain : ∀ s : Str, s.dropWhile isWhitespace = [] → lexOperand s = some (none, s) := by
      intro s hs
      rw [lexOperand, hs, isTail, hs]
      simp [lexWord]
    rw [hplain s hs, hplain (s ++ [c]) (dropWhile_blank hc hs).2]
    rfl
  · obtain ⟨htake, hdrop⟩ :=
      takeWhile_concat (p := isWhitespace) (c := c) fun hnil => absurd hnil hs
    rw [lexOperand, lexOperand, htake, hdrop, lexWord_concat hc, isTail_concat hc]
    by_cases hgap : s.takeWhile isWhitespace = []
    · simp only [if_pos hgap]
      split <;> rfl
    · simp only [if_neg hgap]
      cases lexWord (s.dropWhile isWhitespace) with
      | none =>
        simp only [Option.map_none]
        split <;> rfl
      | some found =>
        simp only [Option.map_some, isTail_concat hc]
        cases isTail found.2 with
        | true => rfl
        | false =>
          simp only [Bool.false_eq_true, if_false]
          split <;> rfl

theorem Parts.Sound.concat {p : Parts} (h : p.Sound) :
    (p.withTail (p.body.tail ++ [c])).Sound := by
  apply h.withTail
  · rw [isTail_concat hc]
    exact h.body.tail
  · intro hnone
    rw [lexOperand_concat hc, h.body.plain hnone]
    rfl

omit hc in
/-- The last character of a line's code is not whitespace. -/
theorem Parts.Sound.no_tail {p : Parts} (h : p.Sound) (hnil : p.body.tail = []) :
    ∀ d ∈ p.text.getLast?, isWhitespace d = false := by
  have hword : ∀ (before : Str) {word : Str}, IsWord word →
      ∀ d ∈ (before ++ word).getLast?, isWhitespace d = false := by
    intro before word hword d hd
    obtain ⟨e, rest, rfl, -⟩ := id hword
    rw [List.getLast?_append_of_ne_nil _ (by simp)] at hd
    exact hword.no_whitespace d (List.mem_of_getLast? hd)
  rw [Parts.text, Body.text, hnil, List.append_nil, Body.operandText]
  cases hoperand : p.body.operand with
  | none =>
    have htext := hword (p.lead ++ (p.labelText ++ p.body.gap)) h.body.mnemonic
    simpa only [List.append_assoc, List.append_nil] using htext
  | some found =>
    obtain ⟨gap, word⟩ := found
    have htext := hword (p.lead ++ (p.labelText ++ (p.body.gap ++ (p.body.mnemonic ++ gap))))
      (h.body.operand gap word hoperand).2.2
    simpa only [List.append_assoc] using htext

theorem lexStatement_concat (s : Str) (hs : isTail s = false) :
    lexStatement (s ++ [c]) =
      (lexStatement s).map fun p => p.withTail (p.body.tail ++ [c]) := by
  cases hparts : lexStatement s with
  | some p =>
    obtain ⟨rfl, hsound⟩ := lexStatement_sound hparts (not_tail_head hs)
    rw [← p.text_append_tail, lexStatement_text (hsound.concat hc)]
    rfl
  | none =>
    cases hlonger : lexStatement (s ++ [c]) with
    | none => rfl
    | some p =>
      exfalso
      have hnot : isTail (s ++ [c]) = false := by rw [isTail_concat hc, hs]
      obtain ⟨htext, hsound⟩ := lexStatement_sound hlonger (not_tail_head hnot)
      -- the whitespace is the last of the tail, which is one without it
      rcases List.eq_nil_or_concat p.body.tail with hnil | ⟨tail, last, htail⟩
      · have hlast := hsound.no_tail hnil c (by rw [← htext]; simp)
        rw [hc] at hlast
        cases hlast
      · rw [List.concat_eq_append] at htail
        have hshorter : p.text = (p.withTail tail).text ++ [last] := by
          rw [← Parts.text_append_tail]
          simp [Parts.withTail, Parts.text, Parts.labelText, Body.text, Body.operandText, htail]
        rw [hshorter] at htext
        obtain ⟨rfl, hsame⟩ := List.append_inj' htext rfl
        cases hsame
        have hsoundTail : (p.withTail tail).Sound := by
          apply hsound.withTail
          · rw [← isTail_concat hc, ← htail]
            exact hsound.body.tail
          · intro hnone
            have hplain := hsound.body.plain hnone
            rw [htail, lexOperand_concat hc] at hplain
            obtain ⟨⟨operand, rest⟩, hrest, heq⟩ := Option.map_eq_some_iff.mp hplain
            simp only [Prod.mk.injEq, List.append_cancel_right_eq] at heq
            obtain ⟨rfl, rfl⟩ := heq
            exact hrest
        rw [lexStatement_text hsoundTail] at hparts
        cases hparts

/-- What a line says is not changed by whitespace at its end. -/
theorem shapeOf_concat (s : Str) : shapeOf (s ++ [c]) = shapeOf s := by
  rw [shapeOf_eq, shapeOf_eq, isTail_concat hc]
  cases hs : isTail s with
  | true => rfl
  | false =>
    rw [lexStatement_concat hc s hs]
    cases lexStatement s <;> rfl

omit hc

/-- Nothing but where things are, within their lines, tells two assemblies apart. -/
structure SaysTheSame (a a' : Assembly) : Prop where
  origin : a.origin = a'.origin
  words : a.words = a'.words
  labels : ∀ name, a.symbols.addressOf name = a'.symbols.addressOf name
  lineFor : a.sourceMap.lineFor = a'.sourceMap.lineFor
  addressFor : a.sourceMap.addressFor = a'.sourceMap.addressFor
  items : a.program.items.map placedOf = a'.program.items.map placedOf
  reports : a.diagnostics.map located = a'.diagnostics.map located

theorem saysTheSame_of_shapes {source source' : Str} (h : shapes source = shapes source') :
    SaysTheSame (assemble source) (assemble source') := by
  have hsketch : sketchOf source = sketchOf source' := by
    rw [shapes, shapes] at h
    rw [sketchOf, sketchOf, h]
  have houtlines := assemble_outlines source
  have houtlines' := assemble_outlines source'
  rw [← hsketch] at houtlines'
  exact
    { origin := houtlines.origin.trans houtlines'.origin.symm
      words := houtlines.words.trans houtlines'.words.symm
      labels := fun name => (houtlines.addressOf name).trans (houtlines'.addressOf name).symm
      lineFor := houtlines.lineFor.trans houtlines'.lineFor.symm
      addressFor := houtlines.addressFor.trans houtlines'.addressFor.symm
      items := houtlines.items.trans houtlines'.items.symm
      reports := by rw [assemble_located, assemble_located, h, hsketch] }

/-- Every newline replaced by a carriage return and a newline. -/
def crlf (source : Str) : Str :=
  source.flatMap fun c => if c = '\n' then ['\r', '\n'] else [c]

theorem crlf_line {line : Str} (h : '\n' ∉ line) : crlf line = line := by
  have hsame : ∀ c ∈ line, (if c = '\n' then ['\r', '\n'] else [c]) = [c] := by
    intro c hc
    rw [if_neg]
    rintro rfl
    exact h hc
  rw [crlf, List.flatMap_congr hsame, List.flatMap_singleton']

theorem crlf_joined {lines : List Str} (h : ∀ line ∈ lines, '\n' ∉ line) (last : Str) :
    crlf (joined lines ++ last) = joined (lines.map (· ++ ['\r'])) ++ crlf last := by
  induction lines with
  | nil => rfl
  | cons line lines ih =>
    have hline := crlf_line (h line List.mem_cons_self)
    have hrest := ih fun other hother => h other (List.mem_cons_of_mem _ hother)
    rw [joined_cons, List.map_cons, joined_cons]
    simp only [List.append_assoc, List.cons_append]
    rw [← hrest]
    conv_rhs => rw [← hline]
    simp [crlf]

theorem shapes_crlf (source : Str) : shapes (crlf source) = shapes source := by
  have hreturn : isWhitespace '\r' = true := by decide
  obtain ⟨lines, last, hlines⟩ : ∃ lines last, source.splitOn '\n' = lines ++ [last] := by
    refine ⟨_, _, (List.dropLast_concat_getLast ?_).symm⟩
    exact List.splitOn_ne_nil _ _
  have hnone : ∀ line ∈ lines ++ [last], '\n' ∉ line := by
    intro line hline
    rw [← hlines] at hline
    exact splitOn_line hline
  have hlast : '\n' ∉ last := hnone last (by simp)
  have hbefore : ∀ line ∈ lines, '\n' ∉ line := fun line hline => hnone line (by simp [hline])
  have hsource : source = joined lines ++ last := by
    rw [← intercalate_last, ← hlines, List.intercalate_splitOn]
  have hending : ∀ line ∈ lines.map (· ++ ['\r']), '\n' ∉ line := by
    intro line hline
    obtain ⟨before, hmem, rfl⟩ := List.mem_map.mp hline
    simp [hbefore before hmem]
  have hcrlf : (crlf source).splitOn '\n' = lines.map (· ++ ['\r']) ++ [last] := by
    conv_lhs => rw [hsource, crlf_joined hbefore, crlf_line hlast]
    exact splitOn_joined hending hlast
  rw [shapes, shapes, hcrlf, hlines, List.map_append, List.map_append, List.map_map]
  congr 1
  apply List.map_congr_left
  intro line hline
  exact shapeOf_concat hreturn line

/-- Whether lines end in a newline or in a carriage return and a newline does not matter. -/
theorem crlf_saysTheSame (source : Str) :
    SaysTheSame (assemble source) (assemble (crlf source)) :=
  saysTheSame_of_shapes (shapes_crlf source).symm

end MarieRs.Asm
