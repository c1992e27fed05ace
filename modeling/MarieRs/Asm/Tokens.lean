import MarieRs.Asm.Places
import MarieRs.Asm.Tails
import MarieRs.Lib.Tiling

namespace MarieRs.Asm

open Lib.Tiling

/-- The kind of a lexical token, for syntax highlighting. -/
inductive TokenKind where
  | label | comma | originKeyword | mnemonic | operand | comment | unknown
  deriving DecidableEq, Repr

structure Token where
  kind : TokenKind
  span : Span
  deriving DecidableEq, Repr

def commentToken (comment : Option Span) : List Token :=
  (comment.map fun span => (⟨.comment, span⟩ : Token)).toList

/-- A label and its comma, the single byte that the label's span stops short of. -/
def labelTokens : Option Span → List Token
  | some label => [⟨.label, label⟩, ⟨.comma, .new label.stop (label.stop + 1)⟩]
  | none => []

/-- The tokens of one line, in source order. -/
def lineTokens (line : Str) (base : Nat) : List Token :=
  match splitLine line base with
  | .blank comment => commentToken comment
  | .origin keyword digits comment =>
    [⟨.originKeyword, keyword⟩, ⟨.operand, digits⟩] ++ commentToken comment
  | .statement label mnemonic operand comment =>
    labelTokens label ++ [⟨.mnemonic, mnemonic⟩] ++
      (operand.map fun span => (⟨.operand, span⟩ : Token)).toList ++ commentToken comment
  | .malformed =>
    let trimmed := trimEnd line
    if trimStart trimmed ≠ [] then
      let start := utf8Len trimmed - utf8Len (trimStart trimmed)
      [⟨.unknown, .new (base + start) (base + utf8Len trimmed)⟩]
    else []

def pushLineTokens (tokens : List Token) (line : Str) (base : Nat) : List Token :=
  tokens ++ lineTokens line base

/-- The tokens of a whole source, also of the lines after `END`. -/
def tokenize (source : Str) : List Token :=
  ((source.splitOn '\n').foldl (fun (tokens, base) line =>
    (pushLineTokens tokens line base, base + utf8Len line + 1)) ([], 0)).1

/-- The tokens of some lines, the first of which starts at a given offset. -/
def tokensFrom (base : Nat) : List Str → List Token
  | [] => []
  | line :: rest => lineTokens line base ++ tokensFrom (base + utf8Len line + 1) rest

theorem tokenize_eq (source : Str) : tokenize source = tokensFrom 0 (source.splitOn '\n') := by
  have hfold : ∀ (lines : List Str) (tokens : List Token) (base : Nat),
      (lines.foldl (fun (tokens, base) line =>
        (pushLineTokens tokens line base, base + utf8Len line + 1)) (tokens, base)).1 =
          tokens ++ tokensFrom base lines := by
    intro lines
    induction lines with
    | nil => exact fun tokens base => (List.append_nil tokens).symm
    | cons line rest ih =>
      intro tokens base
      rw [List.foldl_cons, ih, pushLineTokens, tokensFrom, List.append_assoc]
  rw [tokenize, hfold, List.nil_append]

def Token.range (t : Token) : Nat × Nat := (t.span.start, t.span.stop)

/-- A text in its tokens, none of which reaches over the end of a line. -/
abbrev InTokens (base : Nat) (text : Str) (tokens : List Token) : Prop :=
  Tiles Char.utf8Size isWhitespace (fun piece => '\n' ∉ piece) base text (tokens.map Token.range)

theorem InTokens.piece (base : Nat) (before gap : Str) {piece rest : Str} {t : Token}
    {tokens : List Token} (hgap : gap.all isWhitespace = true) (hne : piece ≠ [])
    (hline : '\n' ∉ piece)
    (hspan : t.span =
      ⟨base + utf8Len (before ++ gap), base + utf8Len (before ++ gap ++ piece)⟩)
    (hrest : InTokens (base + utf8Len (before ++ gap ++ piece)) rest tokens) :
    InTokens (base + utf8Len before) (gap ++ (piece ++ rest)) (t :: tokens) := by
  have hrange : t.range = (base + utf8Len before + size Char.utf8Size gap,
      base + utf8Len before + size Char.utf8Size gap + size Char.utf8Size piece) := by
    simp only [Token.range, hspan, utf8Len_append, Nat.add_assoc]
    rfl
  have hstart : base + utf8Len (before ++ gap ++ piece) =
      base + utf8Len before + size Char.utf8Size gap + size Char.utf8Size piece := by
    simp only [utf8Len_append, Nat.add_assoc]
    rfl
  rw [InTokens, List.map_cons, hrange]
  rw [hstart] at hrest
  exact .piece hgap hne hline hrest

/-- A tail is whitespace, and perhaps a comment. -/
theorem tail_tokens (before : Str) {tail text : Str} (base : Nat) (htext : text = before ++ tail)
    (hline : '\n' ∉ tail) :
    InTokens (base + utf8Len before) tail
      (commentToken ((commentRange text.length tail).map (charSpan text base))) := by
  have hsplit : tail.takeWhile isWhitespace ++ tail.dropWhile isWhitespace = tail :=
    List.takeWhile_append_dropWhile
  have hall := all_takeWhile isWhitespace tail
  rw [commentRange]
  split
  · rename_i hnil
    rw [hnil, List.append_nil] at hsplit
    rw [hsplit] at hall
    exact .gap hall
  · rename_i hne
    have hspan := charSpan_suffix base (before ++ tail.takeWhile isWhitespace)
      (tail.dropWhile isWhitespace)
    rw [List.append_assoc, hsplit, ← htext] at hspan
    have hpiece : '\n' ∉ tail.dropWhile isWhitespace :=
      fun hmem => hline ((List.dropWhile_sublist isWhitespace).mem hmem)
    have hlast : InTokens (base + utf8Len before)
        (tail.takeWhile isWhitespace ++ (tail.dropWhile isWhitespace ++ []))
        [⟨.comment, charSpan text base
          (text.length - (tail.dropWhile isWhitespace).length, text.length)⟩] := by
      refine .piece base before _ hall hne hpiece ?_ (.gap rfl)
      rw [hspan, List.append_assoc, hsplit, htext]
    rw [List.append_nil, hsplit] at hlast
    exact hlast

/-- The operator and what follows it. -/
theorem body_tokens {b : Body} (h : b.Valid) (before text : Str) (base : Nat)
    (htext : text = before ++ b.text) (hline : '\n' ∉ b.text) (kind : TokenKind) :
    InTokens (base + utf8Len before) b.text
      (⟨kind, charSpan text base (b.mnemonicRange before.length)⟩ ::
        (((b.operandRange before.length).map (charSpan text base)).map
          (fun span => (⟨.operand, span⟩ : Token))).toList ++
        commentToken ((commentRange text.length b.tail).map (charSpan text base))) := by
  have hne : ∀ {word : Str}, IsWord word → word ≠ [] := by
    rintro word ⟨c, rest, rfl, -⟩
    simp
  obtain ⟨gap, mnemonic, operand, tail⟩ := b
  rw [Body.text] at htext hline ⊢
  simp only at htext hline ⊢
  simp only [List.mem_append, not_or] at hline
  obtain ⟨-, hmnemonicLine, hoperandLine, htailLine⟩ := hline
  have hmnemonic : charSpan text base
      (Body.mnemonicRange ⟨gap, mnemonic, operand, tail⟩ before.length) =
        ⟨base + utf8Len (before ++ gap), base + utf8Len (before ++ gap ++ mnemonic)⟩ := by
    apply charSpan_piece base
    · rw [htext, List.append_assoc]
    · simp
    · simp
  refine .piece base before gap h.gap (hne h.mnemonic) hmnemonicLine hmnemonic ?_
  cases operand with
  | none =>
    refine tail_tokens _ base ?_ htailLine
    rw [htext]
    simp [Body.operandText]
  | some found =>
    obtain ⟨space, word⟩ := found
    obtain ⟨-, hspace, hword⟩ := h.operand space word rfl
    simp only [Body.operandText, List.mem_append, not_or] at htext hoperandLine ⊢
    have happend : space ++ word ++ tail = space ++ (word ++ tail) := List.append_assoc _ _ _
    rw [happend]
    refine InTokens.piece base _ space hspace (hne hword) hoperandLine.2 ?_ ?_
    · have hsplit : text = (before ++ gap ++ mnemonic ++ space) ++ (word ++ tail) := by
        rw [htext]
        simp only [List.append_assoc]
      exact charSpan_piece base hsplit (by simp [Nat.add_assoc]) (by simp [Nat.add_assoc])
    · refine tail_tokens _ base ?_ htailLine
      rw [htext]
      simp only [List.append_assoc]

theorem parts_tokens {p : Parts} (h : p.Sound) (base : Nat) (hline : '\n' ∉ p.text) :
    InTokens base p.text (lineTokens p.text base) := by
  have hform : splitLine p.text base = p.ranges.form p.text base := by
    rw [splitLine_rangesOf, rangesOf_parts h]
  rw [lineTokens, hform, Parts.ranges]
  cases hlabel : p.label with
  | none =>
    have htext : p.text = p.lead ++ p.body.text := by
      rw [Parts.text, Parts.labelText, hlabel, List.nil_append]
    have hstart : p.bodyStart = p.lead.length := by simp [Parts.bodyStart, Parts.labelText, hlabel]
    have hbody := fun kind => body_tokens h.body p.lead p.text base htext
      (fun hmem => hline (by rw [htext]; simp [hmem])) kind
    have hlead : ∀ {tokens}, InTokens (base + utf8Len p.lead) p.body.text tokens →
        InTokens base p.text tokens := by
      intro tokens htokens
      rw [htext]
      exact Tiles.blanks_append h.lead htokens
    cases horigin : p.isOrigin with
    | true =>
      have hsome : p.body.operand.isSome = true := by
        simp only [Parts.isOrigin, Bool.and_eq_true] at horigin
        obtain ⟨found, hfound, -⟩ := (Option.any_eq_true _ _).mp horigin.2
        rw [hfound]
        rfl
      obtain ⟨found, hfound⟩ := Option.isSome_iff_exists.mp hsome
      have htokens := hlead (hbody .originKeyword)
      simpa [Ranges.form, Parts.mnemonicRange, Parts.operandRange, hstart, Body.operandRange,
        hfound] using htokens
    | false =>
      have htokens := hlead (hbody .mnemonic)
      simpa [Ranges.form, Parts.mnemonicRange, Parts.operandRange, hstart, Parts.labelRange,
        hlabel, labelTokens] using htokens
  | some name =>
    obtain ⟨hne, hall⟩ := h.label hlabel
    have htext : p.text = p.lead ++ (name ++ ([','] ++ p.body.text)) := by
      simp [Parts.text, Parts.labelText, hlabel]
    have hnot : p.isOrigin = false := by simp [Parts.isOrigin, hlabel]
    have hstart : p.bodyStart = (p.lead ++ name ++ [',']).length := by
      simp [Parts.bodyStart, Parts.labelText, hlabel]
    have hin : ∀ c, c ∈ name ∨ c ∈ p.body.text → c ∈ p.text := by
      intro c hc
      rw [htext]
      rcases hc with hc | hc
      · simp [hc]
      · simp [hc]
    have hbody := body_tokens h.body (p.lead ++ name ++ [',']) p.text base
      (by rw [htext]; simp) (fun hmem => hline (hin _ (.inr hmem))) .mnemonic
    have hlabelSpan : charSpan p.text base (p.lead.length, p.lead.length + name.length) =
        ⟨base + utf8Len ([] ++ p.lead), base + utf8Len ([] ++ p.lead ++ name)⟩ :=
      charSpan_piece base htext rfl rfl
    have hcomma : utf8Len [','] = 1 := by decide
    have hcommaSpan : (⟨.comma, .new (base + utf8Len (p.lead ++ name))
        (base + utf8Len (p.lead ++ name) + 1)⟩ : Token).span =
          ⟨base + utf8Len (p.lead ++ name ++ []), base + utf8Len (p.lead ++ name ++ [] ++ [','])⟩ := by
      simp [Span.new, hcomma, Nat.add_assoc]
    have hrest := InTokens.piece base (p.lead ++ name) [] rfl (by simp) (by decide) hcommaSpan
      (by rw [List.append_nil]; exact hbody)
    have htokens := InTokens.piece base [] p.lead
      (t := ⟨.label, base + utf8Len ([] ++ p.lead), base + utf8Len ([] ++ p.lead ++ name)⟩)
      h.lead hne (fun hmem => hline (hin _ (.inl hmem))) rfl hrest
    rw [List.nil_append, ← htext] at htokens
    simpa [Ranges.form, hnot, Parts.mnemonicRange, Parts.operandRange, hstart, Parts.labelRange,
      hlabel, hlabelSpan, labelTokens] using htokens

/-- The text that is left of a line without the whitespace around it. -/
theorem trimmed_split (line : Str) : ∃ lead piece after, line = lead ++ (piece ++ after) ∧
    lead.all isWhitespace = true ∧ after.all isWhitespace = true ∧
    trimEnd line = lead ++ piece ∧ trimStart (trimEnd line) = piece := by
  refine ⟨(trimEnd line).takeWhile isWhitespace, trimStart (trimEnd line),
    (line.reverse.takeWhile isWhitespace).reverse, ?_, all_takeWhile _ _, ?_, ?_, rfl⟩
  · rw [trimStart, ← List.append_assoc, List.takeWhile_append_dropWhile, trimEnd,
      ← List.reverse_append, List.takeWhile_append_dropWhile, List.reverse_reverse]
  · rw [List.all_reverse]
    exact all_takeWhile _ _
  · rw [trimStart, List.takeWhile_append_dropWhile]

theorem trimmed_tokens {line : Str} (base : Nat) (hline : '\n' ∉ line) :
    InTokens base line
      (if trimStart (trimEnd line) ≠ [] then
        [⟨.unknown, .new (base + (utf8Len (trimEnd line) - utf8Len (trimStart (trimEnd line))))
          (base + utf8Len (trimEnd line))⟩]
      else []) := by
  obtain ⟨lead, piece, after, hsplit, hlead, hafter, hstop, hpiece⟩ := trimmed_split line
  rw [hpiece, hstop, hsplit]
  rw [hsplit] at hline
  split
  · rename_i hne
    have hpieceLine : '\n' ∉ piece := fun hmem => hline (by simp [hmem])
    have hspan : utf8Len (lead ++ piece) - utf8Len piece = utf8Len lead := by
      rw [utf8Len_append, Nat.add_sub_cancel]
    rw [hspan]
    exact InTokens.piece base [] lead hlead hne hpieceLine rfl (.gap hafter)
  · rename_i hnil
    rw [not_not.mp hnil, List.nil_append]
    exact .gap (by rw [List.all_append, hlead, hafter]; rfl)

/-- The tokens of any line leave only whitespace between them. -/
theorem lineTokens_inTokens {line : Str} (base : Nat) (hline : '\n' ∉ line) :
    InTokens base line (lineTokens line base) := by
  have hform := splitLine_rangesOf line base
  rw [rangesOf] at hform
  cases htail : isTail line with
  | true =>
    rw [htail, if_pos rfl] at hform
    rw [lineTokens, hform]
    exact tail_tokens [] base rfl hline
  | false =>
    cases hparts : lexStatement line with
    | some p =>
      obtain ⟨rfl, hsound⟩ := lexStatement_sound hparts (not_tail_head htail)
      exact parts_tokens hsound base hline
    | none =>
      simp only [htail, Bool.false_eq_true, if_false, hparts] at hform
      rw [lineTokens, hform]
      exact trimmed_tokens base hline

theorem tokensFrom_inTokens (lines : List Str) (hlines : ∀ line ∈ lines, '\n' ∉ line) (base : Nat)
    (hne : lines ≠ []) :
    InTokens base (List.intercalate ['\n'] lines) (tokensFrom base lines) := by
  induction lines generalizing base with
  | nil => exact absurd rfl hne
  | cons line rest ih =>
    have hfirst := lineTokens_inTokens base (hlines line List.mem_cons_self)
    cases rest with
    | nil =>
      rw [tokensFrom, tokensFrom, List.append_nil, List.intercalate_singleton]
      exact hfirst
    | cons next rest =>
      have hrest := ih (fun other hother => hlines other (List.mem_cons_of_mem _ hother))
        (base + utf8Len line + 1) (by simp)
      have hnewline : size Char.utf8Size ['\n'] = 1 := by decide
      rw [intercalate_cons, tokensFrom, InTokens, List.map_append]
      have hblank : (['\n'] : Str).all isWhitespace = true := by decide
      refine hfirst.append (Tiles.blanks_append hblank ?_)
      rw [hnewline]
      exact hrest

/-- A source in its tokens. -/
theorem tokenize_inTokens (source : Str) : InTokens 0 source (tokenize source) := by
  have htokens := tokensFrom_inTokens (source.splitOn '\n') (fun line => splitOn_line) 0
    (List.splitOn_ne_nil _ _)
  rw [List.intercalate_splitOn, ← tokenize_eq] at htokens
  exact htokens

theorem mem_tokensFrom {lines : List Str} {base : Nat} {t : Token} (h : t ∈ tokensFrom base lines) :
    ∃ number line, lines[number]? = some line ∧
      t ∈ lineTokens line (base + utf8Len (joined (lines.take number))) := by
  induction lines generalizing base with
  | nil => cases h
  | cons first rest ih =>
    rcases List.mem_append.mp h with h | h
    · exact ⟨0, first, rfl, h⟩
    · obtain ⟨number, line, hline, ht⟩ := ih h
      refine ⟨number + 1, line, hline, ?_⟩
      have hnewline : '\n'.utf8Size = 1 := by decide
      rw [List.take_succ_cons, joined_cons, utf8Len_append, utf8Len_cons, hnewline]
      rw [Nat.add_assoc, Nat.add_assoc, ← Nat.add_assoc (utf8Len first)] at ht
      rw [← Nat.add_assoc (utf8Len first)]
      exact ht

theorem tokensFrom_mem {lines : List Str} {number base : Nat} {line : Str} {t : Token}
    (hline : lines[number]? = some line)
    (ht : t ∈ lineTokens line (base + utf8Len (joined (lines.take number)))) :
    t ∈ tokensFrom base lines := by
  induction lines generalizing number base with
  | nil => cases hline
  | cons first rest ih =>
    rw [tokensFrom, List.mem_append]
    cases number with
    | zero =>
      cases hline
      exact .inl ht
    | succ number =>
      have hnewline : '\n'.utf8Size = 1 := by decide
      refine .inr (ih hline ?_)
      rw [List.take_succ_cons, joined_cons, utf8Len_append, utf8Len_cons, hnewline] at ht
      rw [Nat.add_assoc, Nat.add_assoc, ← Nat.add_assoc (utf8Len first)]
      rw [← Nat.add_assoc (utf8Len first)] at ht
      exact ht

/-- The tokens of any line are tokens of the source. -/
theorem AtLine.tokenize {source line : Str} {number base : Nat} {t : Token}
    (h : AtLine source line number base) (ht : t ∈ lineTokens line base) : t ∈ tokenize source := by
  rw [tokenize_eq]
  apply tokensFrom_mem h.line
  rw [Nat.zero_add, ← h.base]
  exact ht

/-- Every token is a piece of its line. -/
theorem tokenize_spanAt {source : Str} {t : Token} (ht : t ∈ tokenize source) :
    ∃ number base before piece after, SpanAt source number base before piece after t.span ∧
      piece ≠ [] ∧ t ∈ lineTokens (before ++ (piece ++ after)) base := by
  rw [tokenize_eq] at ht
  obtain ⟨number, line, hline, hmem⟩ := mem_tokensFrom ht
  rw [Nat.zero_add] at hmem
  have htokens := lineTokens_inTokens (utf8Len (joined ((source.splitOn '\n').take number)))
    (splitOn_line (List.mem_of_getElem? hline))
  obtain ⟨before, piece, after, rfl, hne, -, hrange⟩ := htokens.split (List.mem_map_of_mem hmem)
  obtain ⟨hstart, hstop⟩ := Prod.mk.inj hrange
  refine ⟨number, _, before, piece, after, ⟨⟨hline, rfl⟩, ?_⟩, hne, hmem⟩
  rw [utf8Len_append, ← Nat.add_assoc]
  exact congrArg₂ Span.mk hstart hstop

/-- The tokens partition the visible text of a source. -/
structure Partitions (source : Str) (tokens : List Token) : Prop where
  /-- Every token is some text of one line. -/
  text : ∀ t ∈ tokens, t.span.start < t.span.stop ∧
    ∃ s, t.span.text source = some s ∧ '\n' ∉ s
  /-- Tokens come in order, and do not overlap. -/
  ordered : tokens.Pairwise fun t t' => t.span.stop ≤ t'.span.start
  /-- Every visible character lies in one of them. -/
  covers : ∀ before c after, source = before ++ c :: after → isWhitespace c = false →
    ∃! t, t ∈ tokens ∧ t.span.start ≤ utf8Len before ∧ utf8Len before + c.utf8Size ≤ t.span.stop

theorem tokenize_ordered (source : Str) :
    (tokenize source).Pairwise fun t t' => t.span.stop ≤ t'.span.start :=
  List.pairwise_map.mp (tokenize_inTokens source).pairwise

theorem tokenize_partitions (source : Str) : Partitions source (tokenize source) := by
  have htokens := tokenize_inTokens source
  have hordered := tokenize_ordered source
  refine ⟨fun t ht => ?_, hordered, fun before c after hsource hc => ?_⟩
  · have hmem : t.range ∈ (tokenize source).map Token.range := List.mem_map_of_mem ht
    obtain ⟨before, piece, after, hsource, -, hline, hrange⟩ := htokens.split hmem
    refine ⟨htokens.nonempty Char.utf8Size_pos hmem, piece, ?_, hline⟩
    have hslice := sliceBytes_append before piece after
    rw [Nat.zero_add] at hrange
    obtain ⟨hstart, hstop⟩ := Prod.mk.inj hrange
    rw [Span.text, hstart, hstop, hsource, ← List.append_assoc]
    exact hslice
  · obtain ⟨range, hrange, hle, hlt⟩ := htokens.covers hsource hc
    obtain ⟨t, ht, rfl⟩ := List.mem_map.mp hrange
    rw [Nat.zero_add] at hle hlt
    have hpos := c.utf8Size_pos
    have hsize : utf8Len before < utf8Len before + c.utf8Size := by omega
    refine ⟨t, ⟨ht, hle, hlt⟩, ?_⟩
    rintro t' ⟨ht', hle', hlt'⟩
    exact eq_of_inside (f := Token.range) hordered ht' ht
      ⟨hle', Nat.lt_of_lt_of_le hsize hlt'⟩ ⟨hle, Nat.lt_of_lt_of_le hsize hlt⟩

end MarieRs.Asm
