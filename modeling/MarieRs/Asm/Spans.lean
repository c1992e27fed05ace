import MarieRs.Asm.LineStarts
import MarieRs.Asm.Reports
import MarieRs.Asm.Tokens

namespace MarieRs.Asm

/-- A span of some text of the source, from one character to another. -/
def Usable (source : Str) (span : Span) : Prop :=
  ∃ before piece after, source = before ++ (piece ++ after) ∧
    span = ⟨utf8Len before, utf8Len before + utf8Len piece⟩

/-- A span within a line. -/
def On (source : Str) (line : Nat) (span : Span) : Prop :=
  ∃ base before piece after, SpanAt source line base before piece after span

variable {source : Str}

theorem Usable.text {span : Span} (h : Usable source span) : ∃ s, span.text source = some s := by
  obtain ⟨before, piece, after, rfl, rfl⟩ := h
  refine ⟨piece, ?_⟩
  rw [Span.text, ← List.append_assoc]
  exact sliceBytes_append before piece after

theorem SpanAt.usable {number base : Nat} {before piece after : Str} {span : Span}
    (h : SpanAt source number base before piece after span) : Usable source span := by
  obtain ⟨rest, hsource⟩ := h.line.split
  refine ⟨joined ((source.splitOn '\n').take number) ++ before, piece, after ++ rest, ?_, ?_⟩
  · conv_lhs => rw [hsource]
    simp only [List.append_assoc]
  · rw [h.span, utf8Len_append, utf8Len_append, ← h.line.base, Nat.add_assoc]

namespace On

variable {line : Nat} {span span' : Span}

theorem usable (h : On source line span) : Usable source span := by
  obtain ⟨_, _, _, _, hspan⟩ := h
  exact hspan.usable

theorem lineOf (h : On source line span) : (LineIndex.new source).lineOf span.start = line := by
  obtain ⟨base, before, piece, after, hspan⟩ := h
  rw [hspan.span]
  exact hspan.line.lineOf (List.prefix_append _ _)

/-- From the beginning of a span to the end of a later one on the same line. -/
theorem join (h : On source line span) (h' : On source line span') (hle : span.stop ≤ span'.start) :
    On source line (span.join span') := by
  obtain ⟨base, before, piece, after, hspan⟩ := h
  obtain ⟨base', before', piece', after', hspan'⟩ := h'
  rcases hspan.order hspan' hle with hlt | ⟨-, between, rfl⟩
  · exact absurd hlt (lt_irrefl line)
  · refine ⟨base', before, piece ++ between ++ piece', after', ?_, ?_⟩
    · have hline := hspan'.line
      simp only [List.append_assoc] at hline ⊢
      exact hline
    · have hbase : base = base' := (hspan.line.same hspan'.line).2
      rw [Span.join, hspan.span, hspan'.span, hbase]
      simp only [utf8Len_append, Span.mk.injEq]
      omega

end On

/-- The tokens of a line are on it. -/
theorem AtLine.on {text : Str} {number base : Nat} {t : Token}
    (h : AtLine source text number base) (ht : t ∈ lineTokens text base) :
    On source number t.span := by
  have htokens := lineTokens_inTokens base (splitOn_line (List.mem_of_getElem? h.line))
  obtain ⟨before, piece, after, rfl, -, -, hrange⟩ := htokens.split (List.mem_map_of_mem ht)
  obtain ⟨hstart, hstop⟩ := Prod.mk.inj hrange
  refine ⟨base, before, piece, after, h, ?_⟩
  rw [utf8Len_append, ← Nat.add_assoc]
  exact congrArg₂ Span.mk hstart hstop

theorem AtLine.trimmed_on {text : Str} {number base : Nat} (h : AtLine source text number base) :
    On source number (trimmedSpan text base) := by
  obtain ⟨lead, piece, after, rfl, -, -, hstop, hpiece⟩ := trimmed_split text
  refine ⟨base, lead, piece, after, h, ?_⟩
  rw [trimmedSpan, hpiece, hstop, utf8Len_append, Nat.add_sub_cancel, Span.new]

/-- Line `line` is a statement with these spans. -/
def StatementOn (source : Str) (line : Nat) (label : Option Span) (mnemonic : Span)
    (operand comment : Option Span) : Prop :=
  ∃ text base, AtLine source text line base ∧
    splitLine text base = .statement label mnemonic operand comment

/-- The whole of a statement, without its label and its comment. -/
def codeSpan (mnemonic : Span) (operand : Option Span) : Span :=
  (operand.map mnemonic.join).getD mnemonic

namespace StatementOn

variable {line : Nat} {label : Option Span} {mnemonic : Span} {operand comment : Option Span}

theorem tokens (h : StatementOn source line label mnemonic operand comment) :
    ∃ text base, AtLine source text line base ∧ lineTokens text base =
      labelTokens label ++ [⟨.mnemonic, mnemonic⟩] ++
        (operand.map fun span => (⟨.operand, span⟩ : Token)).toList ++ commentToken comment := by
  obtain ⟨text, base, hline, hform⟩ := h
  refine ⟨text, base, hline, ?_⟩
  simp only [lineTokens, hform]

theorem on_label (h : StatementOn source line label mnemonic operand comment) :
    ∀ span ∈ label, On source line span := by
  obtain ⟨text, base, hline, htokens⟩ := h.tokens
  intro span hspan
  obtain rfl := Option.mem_def.mp hspan
  exact hline.on (t := ⟨.label, span⟩) (by rw [htokens]; simp [labelTokens])

theorem on_mnemonic (h : StatementOn source line label mnemonic operand comment) :
    On source line mnemonic := by
  obtain ⟨text, base, hline, htokens⟩ := h.tokens
  exact hline.on (t := ⟨.mnemonic, mnemonic⟩) (by rw [htokens]; simp)

theorem on_operand (h : StatementOn source line label mnemonic operand comment) :
    ∀ span ∈ operand, On source line span := by
  obtain ⟨text, base, hline, htokens⟩ := h.tokens
  intro span hspan
  obtain rfl := Option.mem_def.mp hspan
  exact hline.on (t := ⟨.operand, span⟩) (by rw [htokens]; simp)

theorem on_comment (h : StatementOn source line label mnemonic operand comment) :
    ∀ span ∈ comment, On source line span := by
  obtain ⟨text, base, hline, htokens⟩ := h.tokens
  intro span hspan
  obtain rfl := Option.mem_def.mp hspan
  exact hline.on (t := ⟨.comment, span⟩) (by rw [htokens]; simp [commentToken])

/-- The comma stands between a label and its mnemonic, and whitespace before an operand. -/
theorem order (h : StatementOn source line label mnemonic operand comment) :
    (∀ span ∈ label, span.stop + 1 ≤ mnemonic.start) ∧ mnemonic.start < mnemonic.stop ∧
      ∀ span ∈ operand, mnemonic.stop ≤ span.start := by
  obtain ⟨text, base, hline, htokens⟩ := h.tokens
  have hinTokens := lineTokens_inTokens base (splitOn_line (List.mem_of_getElem? hline.line))
  have hordered : (lineTokens text base).Pairwise fun t t' => t.span.stop ≤ t'.span.start :=
    List.pairwise_map.mp hinTokens.pairwise
  have hne : mnemonic.start < mnemonic.stop := by
    have hmem : (⟨.mnemonic, mnemonic⟩ : Token) ∈ lineTokens text base := by rw [htokens]; simp
    exact hinTokens.nonempty Char.utf8Size_pos (List.mem_map_of_mem hmem)
  rw [htokens] at hordered
  refine ⟨?_, hne, ?_⟩
  · intro span hspan
    obtain rfl := Option.mem_def.mp hspan
    simp only [labelTokens, List.cons_append, List.nil_append, List.pairwise_cons] at hordered
    exact hordered.2.1 ⟨.mnemonic, mnemonic⟩ (by simp)
  · intro span hspan
    obtain rfl := Option.mem_def.mp hspan
    have hpairs := (List.pairwise_append.mp (List.pairwise_append.mp hordered).1).2.2
    exact hpairs ⟨.mnemonic, mnemonic⟩ (by simp) ⟨.operand, span⟩ (by simp)

theorem on_code (h : StatementOn source line label mnemonic operand comment) :
    On source line (codeSpan mnemonic operand) := by
  cases operand with
  | none => exact h.on_mnemonic
  | some span => exact h.on_mnemonic.join (h.on_operand span rfl) (h.order.2.2 span rfl)

end StatementOn

/-- The tree keeps the spans of the statement, and their texts. -/
structure Kept (source : Str) (item : Item) : Prop where
  statement : StatementOn source item.line (item.label.map Label.span) item.mnemonic.span
    (item.operand.map Operand.span) item.comment
  label : ∀ label ∈ item.label, label.name = textOf source label.span
  mnemonic : item.mnemonic.text = textOf source item.mnemonic.span
  operand : ∀ operand ∈ item.operand, operand.text = textOf source operand.span
  span : item.span = codeSpan item.mnemonic.span (item.operand.map Operand.span)

/-- A diagnostic is about its line, and points to some text of the source. -/
structure Reported (source : Str) (d : Diagnostic) : Prop where
  span : On source d.line d.span
  labels : ∀ label ∈ d.labels, Usable source label.span

/-- All spans of a tree, a table and a list of diagnostics are from the source. -/
structure Traced (source : Str) (program : Program) (symbols : SymbolTable)
    (diagnostics : List Diagnostic) : Prop where
  origin : ∀ origin ∈ program.origin,
    On source origin.line origin.span ∧ On source origin.line origin.digits
  items : ∀ item ∈ program.items, Kept source item
  ended : ∀ end_ ∈ program.end_, On source end_.line end_.span
  trailing : ∀ span ∈ program.trailing, Usable source span
  symbols : ∀ name symbol, symbols.get name = some symbol →
    symbol.name = name ∧ textOf source symbol.definition = name ∧
      ∃ mnemonic operand comment,
        StatementOn source symbol.line (some symbol.definition) mnemonic operand comment
  reports : ∀ d ∈ diagnostics, Reported source d

def ParseState.Traced (source : Str) (st : ParseState) : Prop :=
  Asm.Traced source st.out.program st.out.symbols st.diagnostics

theorem Traced.report {program : Program} {symbols : SymbolTable} {diagnostics : List Diagnostic}
    (h : Traced source program symbols diagnostics) {d : Diagnostic} (hd : Reported source d) :
    Traced source program symbols (diagnostics ++ [d]) := by
  refine { h with reports := fun d' hd' => ?_ }
  rcases List.mem_append.mp hd' with hd' | hd'
  · exact h.reports d' hd'
  · rw [List.mem_singleton.mp hd']
    exact hd

variable {st : ParseState}

theorem parseOrigin_traced (h : st.Traced source) {text : Str} {keyword digits : Span}
    {comment : Option Span} (hline : AtLine source text st.lineNumber st.base)
    (hform : splitLine text st.base = .origin keyword digits comment) :
    (parseOrigin source st keyword digits).Traced source := by
  have htokens : lineTokens text st.base =
      [⟨.originKeyword, keyword⟩, ⟨.operand, digits⟩] ++ commentToken comment := by
    simp only [lineTokens, hform]
  have hkeyword : On source st.lineNumber keyword :=
    hline.on (t := ⟨.originKeyword, keyword⟩) (by rw [htokens]; simp)
  have hdigits : On source st.lineNumber digits :=
    hline.on (t := ⟨.operand, digits⟩) (by rw [htokens]; simp)
  have hordered : keyword.stop ≤ digits.start := by
    have hinTokens := lineTokens_inTokens st.base (splitOn_line (List.mem_of_getElem? hline.line))
    have hpairs : (lineTokens text st.base).Pairwise fun t t' => t.span.stop ≤ t'.span.start :=
      List.pairwise_map.mp hinTokens.pairwise
    rw [htokens, List.cons_append, List.pairwise_cons] at hpairs
    exact hpairs.1 ⟨.operand, digits⟩ (by simp)
  have hspan := hkeyword.join hdigits hordered
  unfold parseOrigin
  simp only
  split
  · exact h.report ⟨hspan, by simp [Diagnostic.error]⟩
  · refine { h with origin := fun origin horigin => ?_ }
    cases horigin
    exact ⟨hspan, hdigits⟩

theorem parseBody_traced (h : st.Traced source) {label : Option Span} {mnemonic : Span}
    {operand comment : Option Span}
    (hstatement : StatementOn source st.lineNumber label mnemonic operand comment)
    (address : MemoryAddress) :
    (parseBody source st address label mnemonic operand comment).Traced source := by
  simp only [parseBody]
  split
  · refine { h with ended := fun end_ hend => ?_ }
    cases hend
    exact hstatement.on_mnemonic
  · refine { h with items := fun item hitem => ?_ }
    rcases List.mem_append.mp hitem with hitem | hitem
    · exact h.items item hitem
    · rw [List.mem_singleton.mp hitem]
      refine ⟨?_, ?_, rfl, ?_, ?_⟩
      · simp only [Option.map_map, Function.comp_def, Option.map_id']
        exact hstatement
      · intro found hfound
        obtain ⟨span, -, rfl⟩ := Option.map_eq_some_iff.mp hfound
        rfl
      · intro found hfound
        obtain ⟨span, -, rfl⟩ := Option.map_eq_some_iff.mp hfound
        rfl
      · cases operand <;> rfl

theorem defineLabel_error {symbols : SymbolTable} {span : Span} {address : MemoryAddress}
    {line : Nat} {d : Diagnostic} (h : defineLabel source symbols span address line = .error d) :
    d.span = span ∧ d.line = line ∧ ∀ label ∈ d.labels,
      ∃ existing, symbols.get (textOf source span) = some existing ∧
        label.span = existing.definition := by
  simp only [defineLabel] at h
  split at h
  · cases h
    exact ⟨rfl, rfl, by simp [Diagnostic.error]⟩
  · split at h
    · cases h
      exact ⟨rfl, rfl, by simp [Diagnostic.error]⟩
    · cases hdefine : symbols.define (textOf source span) address span line with
      | ok symbols' =>
        rw [hdefine] at h
        cases h
      | error existing =>
        rw [hdefine] at h
        cases h
        refine ⟨rfl, rfl, fun label hlabel => ⟨existing, ?_, ?_⟩⟩
        · unfold SymbolTable.define at hdefine
          split at hdefine
          · rename_i hfound
            cases hdefine
            exact hfound
          · cases hdefine
        · simp only [Diagnostic.withLabel, Diagnostic.error, List.nil_append,
            List.mem_singleton] at hlabel
          rw [hlabel]

theorem defineLabel_ok {symbols symbols' : SymbolTable} {span : Span} {address : MemoryAddress}
    {line : Nat} (h : defineLabel source symbols span address line = .ok symbols') :
    symbols.define (textOf source span) address span line = .ok symbols' := by
  simp only [defineLabel] at h
  split at h
  · cases h
  · split at h
    · cases h
    · cases hdefine : symbols.define (textOf source span) address span line with
      | ok defined =>
        rw [hdefine] at h
        cases h
        rfl
      | error existing =>
        rw [hdefine] at h
        cases h

theorem parseStatement_traced (h : st.Traced source) {label : Option Span} {mnemonic : Span}
    {operand comment : Option Span}
    (hstatement : StatementOn source st.lineNumber label mnemonic operand comment) :
    (parseStatement source st label mnemonic operand comment).Traced source := by
  unfold parseStatement
  cases nextAddress st.out with
  | none => exact h.report ⟨hstatement.on_mnemonic, by simp [Diagnostic.error]⟩
  | some address =>
    cases label with
    | none => exact parseBody_traced h hstatement address
    | some span =>
      simp only
      cases hdefine : defineLabel source st.out.symbols span address st.lineNumber with
      | error d =>
        obtain ⟨hspan, hline, hlabels⟩ := defineLabel_error hdefine
        refine h.report ⟨?_, fun label hlabel => ?_⟩
        · rw [hspan, hline]
          exact hstatement.on_label span rfl
        · obtain ⟨existing, hexisting, heq⟩ := hlabels label hlabel
          obtain ⟨-, -, _, _, _, hdefinition⟩ := h.symbols _ existing hexisting
          rw [heq]
          exact (hdefinition.on_label _ rfl).usable
      | ok symbols =>
        have hget := SymbolTable.get_define (defineLabel_ok hdefine)
        have hdefined : ParseState.Traced source { st with out := { st.out with symbols } } := by
          refine { h with symbols := fun name symbol hsymbol => ?_ }
          rw [hget] at hsymbol
          split at hsymbol
          · rename_i hname
            cases hsymbol
            exact ⟨hname.symm, hname.symm, mnemonic, operand, comment, hstatement⟩
          · exact h.symbols name symbol hsymbol
        exact parseBody_traced hdefined hstatement address

theorem parseLine_traced (h : st.Traced source) {text : Str}
    (hline : AtLine source text st.lineNumber st.base) :
    (parseLine source st text).Traced source := by
  unfold parseLine
  cases st.stopped with
  | true =>
    simp only [if_true, skipLine]
    split
    · refine { h with trailing := fun span hspan => ?_ }
      cases hspan
      obtain ⟨base, before, piece, after, hspan⟩ := hline.trimmed_on
      obtain ⟨front, back, rest, hsource, hspan⟩ := hspan.usable
      refine ⟨front, back ++ rest, [], by rw [List.append_nil]; exact hsource, ?_⟩
      rw [hspan]
      conv_lhs => rw [hsource]
      rw [utf8Len_append, Span.new]
    · exact h
  | false =>
    simp only [Bool.false_eq_true, if_false, parseForm]
    cases hform : splitLine text st.base with
    | blank comment => exact h
    | origin keyword digits comment => exact parseOrigin_traced h hline hform
    | statement label mnemonic operand comment =>
      exact parseStatement_traced h ⟨text, st.base, hline, hform⟩
    | malformed =>
      exact h.report ⟨hline.trimmed_on, by simp [Diagnostic.error, Diagnostic.withHelp]⟩

theorem stateUpTo_traced {number : Nat} (h : number ≤ (source.splitOn '\n').length) :
    (stateUpTo source number).Traced source := by
  induction number with
  | zero =>
    refine ⟨by simp [stateUpTo], by simp [stateUpTo], by simp [stateUpTo], by simp [stateUpTo], ?_,
      by simp [stateUpTo]⟩
    intro name symbol hsymbol
    rw [stateUpTo, List.take_zero, List.foldl_nil, SymbolTable.get_empty] at hsymbol
    cases hsymbol
  | succ number ih =>
    obtain ⟨text, htext⟩ : ∃ text, (source.splitOn '\n')[number]? = some text :=
      ⟨_, List.getElem?_eq_getElem (Nat.lt_of_succ_le h)⟩
    rw [stateUpTo_succ htext]
    exact parseLine_traced (ih (Nat.le_of_succ_le h)) (stateUpTo_atLine htext)

namespace Kept

variable {item : Item}

theorem on_span (h : Kept source item) : On source item.line item.span := by
  rw [h.span]
  exact h.statement.on_code

theorem on_operand (h : Kept source item) {operand : Operand}
    (hoperand : item.operand = some operand) :
    On source item.line operand.span := by
  apply h.statement.on_operand
  rw [hoperand]
  rfl

theorem on_point (h : Kept source item) {span : Span} (hspan : item.Points span) :
    On source item.line span := by
  rcases hspan with rfl | rfl | ⟨operand, hoperand, rfl⟩
  · exact h.on_span
  · exact h.statement.on_mnemonic
  · exact h.on_operand hoperand

end Kept

/-- Any source can be traced. -/
theorem assemble_traced (source : Str) :
    Traced source (assemble source).program (assemble source).symbols
      (assemble source).diagnostics := by
  have hfirst := stateUpTo_traced (le_refl (source.splitOn '\n').length)
  rw [stateUpTo, List.take_length] at hfirst
  obtain ⟨new, hnew, habout⟩ := assembleItems_adds (parse source).1.program.items
    ⟨(parse source).1.symbols, (parse source).2⟩
  have houtlines := assemble_outlines source
  refine { hfirst with symbols := fun name symbol hsymbol => ?_, reports := fun d hd => ?_ }
  · obtain ⟨read, ⟨text, base, label, mnemonic, operand, comment, hstatement, hname, hread,
      hdefinition, -⟩, rfl⟩ := houtlines.readSymbols name symbol hsymbol
    refine ⟨hread, ?_, charSpan text base mnemonic, operand.map (charSpan text base),
      comment.map (charSpan text base), text, base, hstatement.line, ?_⟩
    · simp only [hdefinition]
      rw [hstatement.line.textOf (hstatement.ordered.1 label rfl), hname]
    · simp only [hdefinition]
      exact hstatement.form base
  · have hdiagnostics : (assemble source).diagnostics = (parse source).2 ++ new := hnew
    rw [hdiagnostics] at hd
    rcases List.mem_append.mp hd with hd | hd
    · exact hfirst.reports d hd
    · obtain ⟨item, hitem, hline, hspan, hlabels⟩ := habout d hd
      refine ⟨?_, by rw [hlabels]; simp⟩
      rw [hline]
      exact (hfirst.items item hitem).on_point hspan

end MarieRs.Asm
