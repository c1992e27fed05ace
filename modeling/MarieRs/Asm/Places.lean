import MarieRs.Asm.Lines

namespace MarieRs.Asm

/-- A span of a line of the source, told by what the line has before, in and after it. -/
structure SpanAt (source : Str) (number base : Nat) (before piece after : Str) (span : Span) :
    Prop where
  line : AtLine source (before ++ (piece ++ after)) number base
  span : span = ⟨base + utf8Len before, base + utf8Len (before ++ piece)⟩

variable {source : Str}

namespace SpanAt

variable {number base : Nat} {before piece after : Str} {span : Span}

/-- The span reads its piece. -/
theorem text (h : SpanAt source number base before piece after span) :
    span.text source = some piece := by
  obtain ⟨rest, hsource⟩ := h.line.split
  have hslice := sliceBytes_append
    (joined ((source.splitOn '\n').take number) ++ before) piece (after ++ rest)
  have hsplit : source = (joined ((source.splitOn '\n').take number) ++ before) ++ piece ++
      (after ++ rest) := by
    conv_lhs => rw [hsource]
    simp only [List.append_assoc]
  rw [← hsplit, utf8Len_append, ← h.line.base] at hslice
  rw [h.span, Span.text, utf8Len_append, ← Nat.add_assoc]
  exact hslice

/-- Another text in the place of a span changes the line of the span only. -/
theorem swap (h : SpanAt source number base before piece after span) :
    ∃ front back, source = front ++ (piece ++ back) ∧
      span = ⟨utf8Len front, utf8Len front + utf8Len piece⟩ ∧
      ∀ new, '\n' ∉ new → (front ++ (new ++ back)).splitOn '\n' =
        (source.splitOn '\n').set number (before ++ (new ++ after)) := by
  obtain ⟨hlt, htext⟩ := List.getElem?_eq_some_iff.mp h.line.line
  obtain ⟨rest, hrest⟩ := intercalate_split ((source.splitOn '\n').take number)
    ((source.splitOn '\n').drop (number + 1))
  have hset : ∀ line, (source.splitOn '\n').set number line =
      (source.splitOn '\n').take number ++ line :: (source.splitOn '\n').drop (number + 1) :=
    fun line => List.set_eq_take_append_cons_drop.trans (if_pos hlt)
  refine ⟨joined ((source.splitOn '\n').take number) ++ before, after ++ rest, ?_, ?_, ?_⟩
  · have hsource := hrest (before ++ (piece ++ after))
    rw [← hset, ← htext, List.set_getElem_self, List.intercalate_splitOn] at hsource
    rw [htext] at hsource
    simpa only [List.append_assoc] using hsource
  · rw [h.span, utf8Len_append, utf8Len_append, ← h.line.base, Nat.add_assoc]
  · intro new hnew
    have hline : '\n' ∉ before ++ (piece ++ after) :=
      splitOn_line (List.mem_of_getElem? h.line.line)
    simp only [List.mem_append, not_or] at hline
    have hjoin := hrest (before ++ (new ++ after))
    simp only [List.append_assoc] at hjoin ⊢
    rw [← hjoin, ← hset]
    refine List.splitOn_intercalate '\n' (fun line hmem => ?_) (by simp)
    rcases List.mem_or_eq_of_mem_set hmem with hmem | rfl
    · exact splitOn_line hmem
    · simp only [List.mem_append, not_or]
      exact ⟨hline.1, hnew, hline.2.2⟩

end SpanAt

/-- The bytes of a line come before those of a later line, and the newline between them. -/
theorem AtLine.before {text text' : Str} {number number' base base' : Nat}
    (h : AtLine source text number base) (h' : AtLine source text' number' base')
    (hlt : number < number') : base + utf8Len text + 1 ≤ base' := by
  have hprefix : joined ((source.splitOn '\n').take (number + 1)) <+:
      joined ((source.splitOn '\n').take number') := by
    obtain ⟨rest, hrest⟩ := List.take_prefix_take_left (l := source.splitOn '\n')
      (Nat.succ_le_of_lt hlt)
    exact ⟨joined rest, by rw [← hrest, joined, joined, joined, List.flatMap_append]⟩
  obtain ⟨rest, hrest⟩ := hprefix
  have hlength := congrArg utf8Len hrest
  rw [utf8Len_append, joined_take_succ h.line, ← h.base, ← h'.base] at hlength
  omega

/-- Of two beginnings of a text, the shorter is the beginning of the longer. -/
theorem prefix_of_utf8Len {text front front' : Str} (h : front <+: text) (h' : front' <+: text)
    (hle : utf8Len front ≤ utf8Len front') : front <+: front' := by
  rcases List.prefix_or_prefix_of_prefix h h' with hfront | ⟨rest, hrest⟩
  · exact hfront
  · have hlength := congrArg utf8Len hrest
    rw [utf8Len_append] at hlength
    have hnil : rest = [] := utf8Len_eq_zero.mp (by omega)
    rw [hnil, List.append_nil] at hrest
    exact ⟨[], by rw [List.append_nil, hrest]⟩

theorem AtLine.same {text text' : Str} {number base base' : Nat}
    (h : AtLine source text number base) (h' : AtLine source text' number base') :
    text = text' ∧ base = base' :=
  ⟨Option.some.inj (h.line.symm.trans h'.line), h.base.trans h'.base.symm⟩

/-- Of two spans in order, the first is on an earlier line or further up on the same one. -/
theorem SpanAt.order {number number' base base' : Nat}
    {before piece after before' piece' after' : Str} {span span' : Span}
    (h : SpanAt source number base before piece after span)
    (h' : SpanAt source number' base' before' piece' after' span')
    (hle : span.stop ≤ span'.start) :
    number < number' ∨ number = number' ∧ before ++ piece <+: before' := by
  rw [h.span, h'.span] at hle
  simp only at hle
  rcases Nat.lt_trichotomy number number' with hlt | rfl | hlt
  · exact .inl hlt
  · obtain ⟨htext, rfl⟩ := h.line.same h'.line
    refine .inr ⟨rfl, prefix_of_utf8Len ⟨after, ?_⟩ ⟨piece' ++ after', htext.symm⟩ (by omega)⟩
    rw [List.append_assoc]
  · have hlines := h'.line.before h.line hlt
    simp only [utf8Len_append] at hle hlines
    omega

end MarieRs.Asm
