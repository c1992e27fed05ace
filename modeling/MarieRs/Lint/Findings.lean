import MarieRs.Asm.Occurrences
import MarieRs.Lint.Linter

namespace MarieRs.Lint

open Asm (Assembly Item Operand Symbol Span Code Diagnostic Lint LintContext LineIndex Usable On
  Traced Kept)

/-- A diagnostic can be shown: its spans are text, and its line is that of its span. -/
structure Shown (source : Str) (d : Diagnostic) : Prop where
  span : Usable source d.span
  labels : ∀ label ∈ d.labels, Usable source label.span
  line : d.line = (LineIndex.new source).lineOf d.span.start

/-- A lint reports under its own code what can be shown. -/
structure Finds (lint : Lint) (source : Str) (d : Diagnostic) : Prop where
  shown : Shown source d
  code : d.code = lint.code

variable {source : Str}

theorem shown_on {d : Diagnostic} (hspan : On source d.line d.span)
    (hlabels : ∀ label ∈ d.labels, Usable source label.span) : Shown source d :=
  ⟨hspan.usable, hlabels, hspan.lineOf.symm⟩

/-- The lints may look at an assembly that can be traced. -/
structure Watched (cx : LintContext) : Prop where
  traced : Traced cx.source cx.assembly.program cx.assembly.symbols cx.assembly.diagnostics
  lines : cx.assembly.lines = .new cx.source

variable {cx : LintContext}

theorem mem_overItems {indices : List Nat} {check : Nat → Item → List Diagnostic} {d : Diagnostic}
    (h : d ∈ overItems cx indices check) :
    ∃ index item, cx.assembly.program.items[index]? = some item ∧ d ∈ check index item := by
  obtain ⟨index, -, hd⟩ := List.mem_flatMap.mp h
  split at hd
  · rename_i item hitem
    exact ⟨index, item, hitem, hd⟩
  · cases hd

/-- Most lints find fault with an item, at the item itself. -/
theorem shown_item (h : Watched cx) {item : Item} (hitem : item ∈ cx.assembly.program.items)
    {d : Diagnostic} (hline : d.line = item.line) (hspan : item.Points d.span)
    (hlabels : d.labels = []) : Shown cx.source d := by
  refine shown_on ?_ (by simp [hlabels])
  rw [hline]
  exact (h.traced.items item hitem).on_point hspan

theorem fallsIntoData_finds (h : Watched cx) {d : Diagnostic} (hd : d ∈ FallsIntoData.run cx) :
    Finds FallsIntoData cx.source d := by
  simp only [FallsIntoData] at hd
  split at hd
  · cases hd
  · obtain ⟨index, item, hitem, hd⟩ := mem_overItems hd
    split at hd
    · cases hd
    · rw [List.mem_singleton.mp hd]
      exact ⟨shown_item h (List.mem_of_getElem? hitem) rfl (.inl rfl) rfl, rfl⟩

theorem fallsOffEnd_finds (h : Watched cx) {d : Diagnostic} (hd : d ∈ FallsOffEnd.run cx) :
    Finds FallsOffEnd cx.source d := by
  simp only [FallsOffEnd] at hd
  split at hd
  · cases hd
  · obtain ⟨index, item, hitem, hd⟩ := mem_overItems hd
    split at hd
    · cases hd
    · split at hd
      · cases hd
      · rw [List.mem_singleton.mp hd]
        exact ⟨shown_item h (List.mem_of_getElem? hitem) rfl (.inl rfl) rfl, rfl⟩

theorem jumpsOutsideProgram_finds (h : Watched cx) {d : Diagnostic}
    (hd : d ∈ JumpsOutsideProgram.run cx) : Finds JumpsOutsideProgram cx.source d := by
  simp only [JumpsOutsideProgram] at hd
  split at hd
  · cases hd
  · obtain ⟨index, item, hitem, hd⟩ := mem_overItems hd
    obtain ⟨edge, -, hd⟩ := List.mem_flatMap.mp hd
    split at hd
    · rw [List.mem_singleton.mp hd]
      exact ⟨shown_item h (List.mem_of_getElem? hitem) rfl (.inl rfl) rfl, rfl⟩
    · cases hd

theorem unreachableInstruction_finds (h : Watched cx) {d : Diagnostic}
    (hd : d ∈ UnreachableInstruction.run cx) : Finds UnreachableInstruction cx.source d := by
  simp only [UnreachableInstruction] at hd
  split at hd
  · cases hd
  · split at hd
    · cases hd
    · obtain ⟨index, item, hitem, hd⟩ := mem_overItems hd
      split at hd
      · cases hd
      · rw [List.mem_singleton.mp hd]
        exact ⟨shown_item h (List.mem_of_getElem? hitem) rfl (.inl rfl) rfl, rfl⟩

theorem mem_maskedSkipcond {d : Diagnostic} (hd : d ∈ MaskedSkipcond.run cx) :
    ∃ (index : Nat) (item : Item) (word : Word) (node : Operand),
      cx.assembly.program.items[index]? = some item ∧ effectiveOpcode item = some .skipCond ∧
      cx.assembly.words[index]? = some word ∧ MemoryAddress.newMasked word &&& 0x3FF#12 ≠ 0#12 ∧
      item.operand = some node ∧ d.code = MASKED_SKIPCOND ∧ d.span = node.span ∧
      d.line = item.line ∧ d.labels = [] := by
  obtain ⟨index, item, hitem, hd⟩ := mem_overItems hd
  split at hd
  · cases hd
  · rename_i hopcode
    split at hd
    · cases hd
    · rename_i word hword
      simp only at hd
      split at hd
      · cases hd
      · rename_i hlow
        split at hd
        · cases hd
        · rename_i node hnode
          rw [List.mem_singleton.mp hd]
          exact ⟨index, item, word, node, hitem, not_not.mp hopcode, hword, hlow, hnode, rfl, rfl,
            rfl, rfl⟩

theorem maskedSkipcond_finds (h : Watched cx) {d : Diagnostic} (hd : d ∈ MaskedSkipcond.run cx) :
    Finds MaskedSkipcond cx.source d := by
  obtain ⟨_, item, _, node, hitem, -, -, -, hnode, hcode, hspan, hline, hlabels⟩ :=
    mem_maskedSkipcond hd
  have hpoints : item.Points d.span := .inr (.inr ⟨node, hnode, hspan⟩)
  exact ⟨shown_item h (List.mem_of_getElem? hitem) hline hpoints hlabels, hcode⟩

theorem skipcondLabelOperand_finds (h : Watched cx) {d : Diagnostic}
    (hd : d ∈ SkipcondLabelOperand.run cx) : Finds SkipcondLabelOperand cx.source d := by
  obtain ⟨item, hitem, hd⟩ := List.mem_flatMap.mp hd
  split at hd
  · cases hd
  · split at hd
    · cases hd
    · rename_i operand hoperand
      split at hd
      · cases hd
      · split at hd
        · cases hd
        · rename_i symbol hsymbol
          rw [List.mem_singleton.mp hd]
          refine ⟨shown_on ((h.traced.items item hitem).on_operand hoperand) fun label hlabel => ?_,
            rfl⟩
          obtain ⟨-, -, _, _, _, hstatement⟩ := h.traced.symbols _ symbol hsymbol
          rw [List.mem_singleton.mp hlabel]
          exact (hstatement.on_label _ rfl).usable

/-- A lint about a word that is written over points at both items. -/
theorem shown_victim (h : Watched cx) {item : Item} (hitem : item ∈ cx.assembly.program.items)
    {slot : Nat} {lint : Lint} {finding : Item → Diagnostic} {d : Diagnostic}
    (hcode : ∀ victim, (finding victim).code = lint.code)
    (hline : ∀ victim, (finding victim).line = item.line)
    (hspan : ∀ victim, (finding victim).span = item.span)
    (hlabels : ∀ victim, ∀ label ∈ (finding victim).labels, label.span = victim.span)
    (hd : d ∈ overItems cx [slot] fun _ victim => [finding victim]) : Finds lint cx.source d := by
  obtain ⟨index, victim, hvictim, hd⟩ := mem_overItems hd
  rw [List.mem_singleton.mp hd]
  refine ⟨shown_on ?_ fun label hlabel => ?_, hcode victim⟩
  · rw [hline, hspan]
    exact (h.traced.items item hitem).on_span
  · rw [hlabels victim label hlabel]
    exact (h.traced.items victim (List.mem_of_getElem? hvictim)).on_span.usable

theorem jnsOverwritesCode_finds (h : Watched cx) {d : Diagnostic}
    (hd : d ∈ JnsOverwritesCode.run cx) : Finds JnsOverwritesCode cx.source d := by
  simp only [JnsOverwritesCode] at hd
  split at hd
  · cases hd
  · obtain ⟨index, item, hitem, hd⟩ := mem_overItems hd
    split at hd
    · cases hd
    · split at hd
      · cases hd
      · split at hd
        · cases hd
        · refine shown_victim h (List.mem_of_getElem? hitem) (fun _ => rfl) (fun _ => rfl)
            (fun _ => rfl) (fun victim label hlabel => ?_) hd
          rw [List.mem_singleton.mp hlabel]

theorem selfModifyingCode_finds (h : Watched cx) {d : Diagnostic}
    (hd : d ∈ SelfModifyingCode.run cx) : Finds SelfModifyingCode cx.source d := by
  simp only [SelfModifyingCode] at hd
  split at hd
  · cases hd
  · obtain ⟨index, item, hitem, hd⟩ := mem_overItems hd
    split at hd
    · cases hd
    · split at hd
      · cases hd
      · split at hd
        · cases hd
        · refine shown_victim h (List.mem_of_getElem? hitem) (fun _ => rfl) (fun _ => rfl)
            (fun _ => rfl) (fun victim label hlabel => ?_) hd
          rw [List.mem_singleton.mp hlabel]

theorem missingHalt_finds (h : Watched cx) {d : Diagnostic} (hd : d ∈ MissingHalt.run cx) :
    Finds MissingHalt cx.source d := by
  simp only [MissingHalt] at hd
  split at hd
  · cases hd
  · rename_i first rest hitems
    split at hd
    · cases hd
    · rw [List.mem_singleton.mp hd]
      have hfirst : first ∈ cx.assembly.program.items := by rw [hitems]; exact List.mem_cons_self
      exact ⟨shown_item h hfirst rfl (.inl rfl) rfl, rfl⟩

theorem mem_nonCanonicalMnemonic {d : Diagnostic} (hd : d ∈ NonCanonicalMnemonic.run cx) :
    ∃ item ∈ cx.assembly.program.items, d.code = NON_CANONICAL_MNEMONIC ∧
      d.span = item.mnemonic.span ∧ d.line = item.line ∧ d.labels = [] := by
  obtain ⟨item, hitem, hd⟩ := List.mem_flatMap.mp hd
  split at hd
  · cases hd
  · split at hd
    · cases hd
    · rw [List.mem_singleton.mp hd]
      exact ⟨item, hitem, rfl, rfl, rfl, rfl⟩

theorem nonCanonicalMnemonic_finds (h : Watched cx) {d : Diagnostic}
    (hd : d ∈ NonCanonicalMnemonic.run cx) : Finds NonCanonicalMnemonic cx.source d := by
  obtain ⟨item, hitem, hcode, hspan, hline, hlabels⟩ := mem_nonCanonicalMnemonic hd
  exact ⟨shown_item h hitem hline (.inr (.inl hspan)) hlabels, hcode⟩

/-- A lint about a label points at its definition. -/
theorem shown_symbol (h : Watched cx) {symbol : Symbol}
    (hsymbol : symbol ∈ cx.assembly.symbols.iter)
    {d : Diagnostic} (hline : d.line = symbol.line) (hspan : d.span = symbol.definition)
    (hlabels : d.labels = []) : Shown cx.source d := by
  obtain ⟨name, -, hget⟩ := Asm.mem_iter hsymbol
  obtain ⟨-, -, _, _, _, hstatement⟩ := h.traced.symbols name symbol hget
  refine shown_on ?_ (by simp [hlabels])
  rw [hline, hspan]
  exact hstatement.on_label _ rfl

theorem labelShadowsMnemonic_finds (h : Watched cx) {d : Diagnostic}
    (hd : d ∈ LabelShadowsMnemonic.run cx) : Finds LabelShadowsMnemonic cx.source d := by
  obtain ⟨symbol, hsymbol, hd⟩ := List.mem_flatMap.mp hd
  simp only at hd
  split at hd
  · rw [List.mem_singleton.mp hd]
    exact ⟨shown_symbol h hsymbol rfl rfl rfl, rfl⟩
  · cases hd

theorem unusedLabel_finds (h : Watched cx) {d : Diagnostic} (hd : d ∈ Asm.UnusedLabel.run cx) :
    Finds Asm.UnusedLabel cx.source d := by
  obtain ⟨symbol, hsymbol, rfl⟩ := List.mem_map.mp hd
  exact ⟨shown_symbol h (List.mem_of_mem_filter hsymbol) rfl rfl rfl, rfl⟩

theorem unreachableCode_finds (h : Watched cx) {d : Diagnostic}
    (hd : d ∈ Asm.UnreachableCode.run cx) : Finds Asm.UnreachableCode cx.source d := by
  simp only [Asm.UnreachableCode] at hd
  split at hd
  · rename_i end_ trailing hend htrailing
    rw [List.mem_singleton.mp hd]
    refine ⟨⟨h.traced.trailing trailing htrailing, fun label hlabel => ?_, ?_⟩, rfl⟩
    · rw [List.mem_singleton.mp hlabel]
      exact (h.traced.ended end_ hend).usable
    · rw [← h.lines]
      rfl
  · cases hd

theorem ignoredOperand_finds (h : Watched cx) {d : Diagnostic}
    (hd : d ∈ Asm.IgnoredOperand.run cx) : Finds Asm.IgnoredOperand cx.source d := by
  obtain ⟨item, hitem, hd⟩ := List.mem_flatMap.mp hd
  split at hd
  · cases hd
  · split at hd
    · cases hd
    · rename_i operand hoperand
      rw [List.mem_singleton.mp hd]
      exact ⟨shown_item h hitem rfl (.inr (.inr ⟨operand, hoperand, rfl⟩)) rfl, rfl⟩

/-- The lints of this repository. -/
theorem lints_finds (h : Watched cx) {lint : Lint} (hlint : lint ∈ Linter.new.lints)
    {d : Diagnostic} (hd : d ∈ lint.run cx) : Finds lint cx.source d := by
  rcases mem_lints hlint with
    rfl | rfl | rfl | rfl | rfl | rfl | rfl | rfl | rfl | rfl | rfl | rfl | rfl | rfl
  · exact fallsIntoData_finds h hd
  · exact fallsOffEnd_finds h hd
  · exact jumpsOutsideProgram_finds h hd
  · exact unreachableInstruction_finds h hd
  · exact maskedSkipcond_finds h hd
  · exact skipcondLabelOperand_finds h hd
  · exact jnsOverwritesCode_finds h hd
  · exact selfModifyingCode_finds h hd
  · exact missingHalt_finds h hd
  · exact nonCanonicalMnemonic_finds h hd
  · exact labelShadowsMnemonic_finds h hd
  · exact unusedLabel_finds h hd
  · exact unreachableCode_finds h hd
  · exact ignoredOperand_finds h hd

/-- A span reads the text that is kept beside it. -/
def Reads (source : Str) (span : Span) (text : Str) : Prop :=
  Usable source span ∧ span.text source = some text

/-- The spans of an item are text, and its line is that of its span. -/
structure SoundItem (source : Str) (item : Item) : Prop where
  label : ∀ label ∈ item.label, Reads source label.span label.name
  mnemonic : Reads source item.mnemonic.span item.mnemonic.text
  operand : ∀ operand ∈ item.operand, Reads source operand.span operand.text
  comment : ∀ span ∈ item.comment, Usable source span
  span : Usable source item.span
  line : item.line = (LineIndex.new source).lineOf item.span.start

structure SoundSymbol (source : Str) (symbol : Symbol) : Prop where
  definition : Reads source symbol.definition symbol.name
  references : ∀ span ∈ symbol.references, Reads source span symbol.name
  line : symbol.line = (LineIndex.new source).lineOf symbol.definition.start

/-- Every span of an assembly and of some diagnostics is text of the source, and every line
noted beside one is the line it begins on. -/
structure Sound (source : Str) (a : Assembly) (diagnostics : List Diagnostic) : Prop where
  origin : ∀ origin ∈ a.program.origin, Usable source origin.span ∧ Usable source origin.digits ∧
    origin.line = (LineIndex.new source).lineOf origin.span.start
  items : ∀ item ∈ a.program.items, SoundItem source item
  ended : ∀ end_ ∈ a.program.end_, Usable source end_.span ∧
    end_.line = (LineIndex.new source).lineOf end_.span.start
  trailing : ∀ span ∈ a.program.trailing, Usable source span
  symbols : ∀ name symbol, a.symbols.get name = some symbol → SoundSymbol source symbol
  diagnostics : ∀ d ∈ diagnostics, Shown source d

theorem Reads.of_usable {span : Span} {text : Str} (h : Usable source span)
    (htext : text = Asm.textOf source span) : Reads source span text :=
  ⟨h, by rw [htext]; exact h.text_eq⟩

theorem soundItem {item : Item} (h : Kept source item) : SoundItem source item where
  label := fun label hlabel => by
    refine .of_usable (h.statement.on_label label.span ?_).usable (h.label label hlabel)
    rw [Option.mem_def.mp hlabel]
    rfl
  mnemonic := .of_usable h.statement.on_mnemonic.usable h.mnemonic
  operand := fun operand hoperand =>
    .of_usable (h.on_operand hoperand).usable (h.operand operand hoperand)
  comment := fun span hspan => (h.statement.on_comment span hspan).usable
  span := h.on_span.usable
  line := h.on_span.lineOf.symm

theorem soundSymbol {name : Str} {symbol : Symbol}
    (h : (Asm.assemble source).symbols.get name = some symbol) : SoundSymbol source symbol := by
  have htexts := fun o ho => Asm.occurrence_text (o := o) h ho
  obtain ⟨-, -, _, _, _, hstatement⟩ := (Asm.assemble_traced source).symbols name symbol h
  have hdefinition := hstatement.on_label _ rfl
  refine ⟨⟨hdefinition.usable, ?_⟩, fun span hspan => ⟨?_, ?_⟩, hdefinition.lineOf.symm⟩
  · exact htexts ⟨symbol, .definition, symbol.definition⟩ List.mem_cons_self
  · rw [Asm.references_uses source h] at hspan
    obtain ⟨item, hitem, huses⟩ := List.mem_flatMap.mp hspan
    obtain ⟨operand, hoperand, -, rfl⟩ := Asm.mem_uses huses
    exact (((Asm.assemble_traced source).items item hitem).on_operand hoperand).usable
  · exact htexts ⟨symbol, .reference, span⟩
      (List.mem_cons_of_mem _ (List.mem_map_of_mem hspan))

theorem sound (source : Str) (diagnostics : List Diagnostic)
    (h : ∀ d ∈ diagnostics, Shown source d) : Sound source (Asm.assemble source) diagnostics := by
  have htraced := Asm.assemble_traced source
  refine ⟨fun origin horigin => ?_, fun item hitem => soundItem (htraced.items item hitem),
    fun end_ hend => ?_, htraced.trailing, fun name symbol => soundSymbol, h⟩
  · obtain ⟨hspan, hdigits⟩ := htraced.origin origin horigin
    exact ⟨hspan.usable, hdigits.usable, hspan.lineOf.symm⟩
  · have hspan := htraced.ended end_ hend
    exact ⟨hspan.usable, hspan.lineOf.symm⟩

theorem reported_shown {d : Diagnostic} (h : Asm.Reported source d) : Shown source d :=
  shown_on h.span h.labels

/-- What a linted file reports is the assembler's or, at some level, a lint's. -/
theorem check_cases {levels : Code → Option Level} {defaultLevel : Level} {d : Diagnostic}
    (hd : d ∈ ({ Linter.new with levels, defaultLevel }.check source).diagnostics) :
    d ∈ (Asm.assemble source).diagnostics ∨ ∃ lint ∈ Linter.new.lints,
      ∃ found ∈ lint.run ⟨Asm.assemble source, source⟩, ∃ level : Level, d = level.apply found := by
  rw [Linter.check_diagnostics] at hd
  rcases List.mem_append.mp hd with hd | hd
  · exact .inl hd
  · obtain ⟨lint, hlint, hd⟩ := List.mem_flatMap.mp hd
    simp only [Linter.produced] at hd
    split at hd
    · cases hd
    · obtain ⟨found, hfound, rfl⟩ := List.mem_map.mp hd
      exact .inr ⟨lint, hlint, found, hfound, _, rfl⟩

/-- At the levels of a new linter everything that a lint finds is reported. -/
theorem mem_check {lint : Lint} (hlint : lint ∈ Linter.new.lints) {d : Diagnostic}
    (hd : d ∈ lint.run ⟨Asm.assemble source, source⟩) : d ∈ (Linter.new.check source).diagnostics := by
  rw [Linter.check_diagnostics]
  refine List.mem_append_right _ (List.mem_flatMap.mpr ⟨lint, hlint, ?_⟩)
  exact List.mem_map.mpr ⟨d, hd, rfl⟩

/-- A linted file is sound at any levels, and so is one that is assembled with the lints. -/
theorem check_sound (source : Str) (levels : Code → Option Level) (defaultLevel : Level) :
    Sound source ({ Linter.new with levels, defaultLevel }.check source).assembly
        ({ Linter.new with levels, defaultLevel }.check source).diagnostics ∧
      Sound source (Asm.assembleWith source ⟨Linter.new.lints⟩)
        (Asm.assembleWith source ⟨Linter.new.lints⟩).diagnostics := by
  have htraced := Asm.assemble_traced source
  have hown : ∀ d ∈ (Asm.assemble source).diagnostics, Shown source d :=
    fun d hd => reported_shown (htraced.reports d hd)
  have hassembled : Watched ⟨Asm.assemble source, source⟩ := ⟨htraced, rfl⟩
  have hunreported : Watched ⟨Asm.unreported source, source⟩ :=
    ⟨{ htraced with reports := by simp [Asm.unreported] }, rfl⟩
  constructor
  · rw [Linter.check_assembly]
    refine sound source _ fun d hd => ?_
    rcases check_cases hd with hd | ⟨lint, hlint, found, hfound, level, rfl⟩
    · exact hown d hd
    · obtain ⟨hspan, hlabels, hline⟩ := (lints_finds hassembled hlint hfound).shown
      rw [Level.apply]
      split
      · exact ⟨hspan, hlabels, hline⟩
      · exact ⟨hspan, hlabels, hline⟩
  · rw [Asm.assembleWith_eq]
    have hsound := sound source ((Asm.assemble source).diagnostics ++
      Linter.new.lints.flatMap fun lint => lint.run ⟨Asm.unreported source, source⟩) ?_
    · exact { hsound with }
    · intro d hd
      rcases List.mem_append.mp hd with hd | hd
      · exact hown d hd
      · obtain ⟨lint, hlint, hd⟩ := List.mem_flatMap.mp hd
        exact (lints_finds hunreported hlint hd).shown

end MarieRs.Lint
