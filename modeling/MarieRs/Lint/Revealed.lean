import MarieRs.Asm.Occurrences
import MarieRs.Asm.Trailing
import MarieRs.Asm.Unknown
import MarieRs.Lint.Findings

namespace MarieRs.Lint

open Asm (Assembly Item Operand Symbol SymbolTable Statement Code Diagnostic Labels Lint LintContext
  LineIndex Reworded Repaired Unresolved located looksLikeAddressLiteral uses operandUses
  operandOpcode placedOf sketchOf)

/-- The lints that follow control through the whole program, and say nothing as long as there are
errors in it. -/
def WHOLE_PROGRAM : List Code :=
  [FALLS_INTO_DATA, FALLS_OFF_END, JUMPS_OUTSIDE, UNREACHABLE_INSTRUCTION, JNS_OVERWRITES_CODE,
    SELF_MODIFYING_CODE]

/-- What can be found only once the word of a line is there: whatever needs the whole program, and
on the line itself that its condition is masked. -/
def Revealed (line : Nat) (found : Code × Nat) : Prop :=
  found.1 ∈ WHOLE_PROGRAM ∨ found = (MASKED_SKIPCOND, line)

instance (line : Nat) (found : Code × Nat) : Decidable (Revealed line found) :=
  inferInstanceAs (Decidable (_ ∨ _))

/-- The findings but for those. -/
def unrevealed (line : Nat) (diagnostics : List Diagnostic) : List (Code × Nat) :=
  (diagnostics.map located).filter fun found => ¬ Revealed line found

theorem masked_apart : MASKED_SKIPCOND ∉ WHOLE_PROGRAM := by decide

variable {line : Nat}

theorem unrevealed_append (first rest : List Diagnostic) :
    unrevealed line (first ++ rest) = unrevealed line first ++ unrevealed line rest := by
  unfold unrevealed
  rw [List.map_append, List.filter_append]

theorem unrevealed_flatMap {α : Type} {l : List α} {f g : α → List Diagnostic}
    (h : ∀ a ∈ l, unrevealed line (g a) = (f a).map located) :
    unrevealed line (l.flatMap g) = (l.flatMap f).map located := by
  induction l with
  | nil => rfl
  | cons a l ih =>
    rw [List.flatMap_cons, List.flatMap_cons, unrevealed_append, List.map_append,
      h a List.mem_cons_self, ih fun b hb => h b (List.mem_cons_of_mem a hb)]

theorem unrevealed_all {diagnostics : List Diagnostic}
    (h : ∀ d ∈ diagnostics, ¬ Revealed line (located d)) :
    unrevealed line diagnostics = diagnostics.map located := by
  unfold unrevealed
  rw [List.filter_eq_self]
  intro found hfound
  obtain ⟨d, hd, rfl⟩ := List.mem_map.mp hfound
  rw [decide_eq_true_eq]
  exact h d hd

theorem unrevealed_none {diagnostics : List Diagnostic}
    (h : ∀ d ∈ diagnostics, Revealed line (located d)) : unrevealed line diagnostics = [] := by
  unfold unrevealed
  rw [List.filter_eq_nil_iff]
  intro found hfound
  obtain ⟨d, hd, rfl⟩ := List.mem_map.mp hfound
  rw [decide_eq_true_eq]
  exact not_not.mpr (h d hd)

theorem located_apply (level : Level) (diagnostics : List Diagnostic) :
    (diagnostics.map level.apply).map located = diagnostics.map located := by
  rw [List.map_map]
  refine List.map_congr_left fun d _ => ?_
  unfold Function.comp Level.apply
  split <;> rfl

/-- Items alike but for their operands: where these differ, neither is the name of a label. -/
structure Beside (labels : Labels) (item item' : Item) : Prop where
  line : item'.line = item.line
  text : item'.mnemonic.text = item.mnemonic.text
  kind : item'.mnemonic.kind = item.mnemonic.kind
  operand : item'.operand.map Operand.text = item.operand.map Operand.text ∨
    ∃ operand operand', item.operand = some operand ∧ item'.operand = some operand' ∧
      labels operand.text = none ∧ looksLikeAddressLiteral operand'.text = true

/-- What the lints about labels see of one. -/
def seen (symbol : Symbol) : Str × Nat × Bool := (symbol.name, symbol.line, symbol.isUnused)

/-- The line that the text after `END` begins on. -/
def trailingLine (a : Assembly) : Option Nat :=
  a.program.end_.bind fun _ =>
    a.program.trailing.map fun span => (a.lines.position span.start).line

/-- A program that has no word for the item with an index, and the same with some word there, as the
lints see them. -/
structure Resembles (a a' : Assembly) (index line : Nat) : Prop where
  failed : a.succeeded = false
  items : List.Forall₂ (Beside a.symbols.addressOf) a.program.items a'.program.items
  line : ∀ i item, a.program.items[i]? = some item → (item.line = line ↔ i = index)
  blank : a.words[index]? = some 0
  words : ∀ i, i ≠ index → a'.words[i]? = a.words[i]?
  labels : ∀ name, a'.symbols.addressOf name = a.symbols.addressOf name
  symbols : a'.symbols.iter.map seen = a.symbols.iter.map seen
  trailing : trailingLine a' = trailingLine a

variable {α : Type} {R : α → α → Prop} {l l' : List α}

theorem forall₂_flatMap (h : List.Forall₂ R l l') {f g : α → List Diagnostic}
    (hf : ∀ x y, R x y → (g y).map located = (f x).map located) :
    (l'.flatMap g).map located = (l.flatMap f).map located := by
  induction h with
  | nil => rfl
  | cons hxy _ ih => rw [List.flatMap_cons, List.flatMap_cons, List.map_append, List.map_append,
      hf _ _ hxy, ih]

theorem forall₂_map {β : Type} (h : List.Forall₂ R l l') {f : α → β}
    (hf : ∀ x y, R x y → f y = f x) : l'.map f = l.map f := by
  induction h with
  | nil => rfl
  | cons hxy _ ih => rw [List.map_cons, List.map_cons, hf _ _ hxy, ih]

theorem forall₂_getElem? (h : List.Forall₂ R l l') (i : Nat) :
    (l[i]? = none ∧ l'[i]? = none) ∨ ∃ x y, l[i]? = some x ∧ l'[i]? = some y ∧ R x y := by
  induction h generalizing i with
  | nil => exact .inl ⟨rfl, rfl⟩
  | cons hxy _ ih =>
    cases i with
    | zero => exact .inr ⟨_, _, rfl, rfl, hxy⟩
    | succ i => exact ih i

theorem forall₂_eq_nil (h : List.Forall₂ R l l') {β : Type} {f g : α → List β}
    (hf : ∀ x y, R x y → (g y = [] ↔ f x = [])) : l'.flatMap g = [] ↔ l.flatMap f = [] := by
  induction h with
  | nil => exact Iff.rfl
  | cons hxy _ ih => rw [List.flatMap_cons, List.flatMap_cons, List.append_eq_nil_iff,
      List.append_eq_nil_iff, hf _ _ hxy, ih]

/-- Both items have no operand, or both have one. -/
theorem Beside.operand_cases {labels : Labels} {item item' : Item} (h : Beside labels item item') :
    (item.operand = none ∧ item'.operand = none) ∨
      ∃ operand operand', item.operand = some operand ∧ item'.operand = some operand' ∧
        (operand'.text = operand.text ∨
          labels operand.text = none ∧ looksLikeAddressLiteral operand'.text = true) := by
  rcases h.operand with hsame | ⟨operand, operand', hown, hown', hapart⟩
  · cases hown : item.operand with
    | none =>
      rw [hown, Option.map_none, Option.map_eq_none_iff] at hsame
      exact .inl ⟨rfl, hsame⟩
    | some operand =>
      rw [hown, Option.map_some, Option.map_eq_some_iff] at hsame
      obtain ⟨operand', hown', htext⟩ := hsame
      exact .inr ⟨operand, operand', rfl, hown', .inl htext⟩
  · exact .inr ⟨operand, operand', hown, hown', .inr hapart⟩

/-- An operand that names no label uses none, and neither does an address. -/
theorem Beside.uses_eq_nil {labels : Labels} {item item' : Item} (h : Beside labels item item')
    {name : Str} (hname : labels name ≠ none) : uses item' name = [] ↔ uses item name = [] := by
  unfold uses
  rw [h.kind]
  cases operandOpcode item.mnemonic.kind with
  | none => exact Iff.rfl
  | some opcode =>
    simp only [operandUses]
    rcases h.operand_cases with ⟨hown, hown'⟩ | ⟨operand, operand', hown, hown', hsame | hapart⟩
    · simp only [hown, hown']
    · simp only [hown, hown', hsame]
      split <;> simp only [List.cons_ne_nil]
    · have hother : operand.text ≠ name := by
        rintro rfl
        exact hname hapart.1
      simp only [hown, hown', hapart.2, hother, not_true, false_and, and_false, if_false]

namespace Resembles

variable {a a' : Assembly} {index : Nat} {source source' : Str}

theorem nonCanonicalMnemonic (h : Resembles a a' index line) :
    (NonCanonicalMnemonic.run ⟨a', source'⟩).map located =
      (NonCanonicalMnemonic.run ⟨a, source⟩).map located := by
  refine forall₂_flatMap h.items fun item item' hbeside => ?_
  simp only [hbeside.kind, hbeside.text]
  cases canonical item.mnemonic.kind with
  | none => rfl
  | some spelling =>
    simp only
    split
    · rfl
    · simp only [List.map_singleton, located, Diagnostic.withHelp, Diagnostic.advice, hbeside.line]

theorem ignoredOperand (h : Resembles a a' index line) :
    (Asm.IgnoredOperand.run ⟨a', source'⟩).map located =
      (Asm.IgnoredOperand.run ⟨a, source⟩).map located := by
  refine forall₂_flatMap h.items fun item item' hbeside => ?_
  simp only [hbeside.kind]
  split
  · rfl
  · rcases hbeside.operand_cases with ⟨hown, hown'⟩ | ⟨operand, operand', hown, hown', -⟩
    · rw [hown, hown']
    · rw [hown, hown']
      simp only [List.map_singleton, located, Diagnostic.withHelp, Diagnostic.warning, hbeside.line]

theorem missingHalt (h : Resembles a a' index line) :
    (MissingHalt.run ⟨a', source'⟩).map located = (MissingHalt.run ⟨a, source⟩).map located := by
  have hkinds := forall₂_map h.items (f := fun item => item.mnemonic.kind)
    fun item item' hbeside => hbeside.kind
  have hany : ∀ items : List Item, items.any (fun item => item.mnemonic.kind == .opcode .halt) =
      (items.map fun item => item.mnemonic.kind).any (· == .opcode .halt) := by
    intro items
    rw [List.any_map]
    rfl
  have hitems := h.items
  simp only [MissingHalt]
  cases hown : a.program.items with
  | nil =>
    rw [hown, List.forall₂_nil_left_iff] at hitems
    rw [hitems]
  | cons first rest =>
    rw [hown, List.forall₂_cons_left_iff] at hitems
    obtain ⟨first', rest', hfirst, -, hown'⟩ := hitems
    rw [hown, hown'] at hkinds
    rw [hown']
    simp only [hany, hkinds]
    split
    · rfl
    · simp only [List.map_singleton, located, Diagnostic.withHelp, Diagnostic.warning, hfirst.line]

theorem labelShadowsMnemonic (h : Resembles a a' index line) :
    (LabelShadowsMnemonic.run ⟨a', source'⟩).map located =
      (LabelShadowsMnemonic.run ⟨a, source⟩).map located := by
  have hseen : ∀ b : Assembly, ∀ source, (LabelShadowsMnemonic.run ⟨b, source⟩).map located =
      (b.symbols.iter.map seen).flatMap fun symbol =>
        if (Opcode.fromMnemonic (toAsciiLowercase symbol.1)).isSome ∨
            (Directive.fromMnemonic (toAsciiLowercase symbol.1)).isSome then
          [(LABEL_SHADOWS_MNEMONIC, symbol.2.1)]
        else [] := by
    intro b source
    simp only [LabelShadowsMnemonic, List.map_flatMap, List.flatMap_map, seen]
    congr 1
    funext symbol
    rw [apply_ite (List.map located)]
    rfl
  rw [hseen, hseen, h.symbols]

theorem unusedLabel (h : Resembles a a' index line) :
    (Asm.UnusedLabel.run ⟨a', source'⟩).map located =
      (Asm.UnusedLabel.run ⟨a, source⟩).map located := by
  have hseen : ∀ b : Assembly, ∀ source, (Asm.UnusedLabel.run ⟨b, source⟩).map located =
      ((b.symbols.iter.map seen).filter fun symbol => symbol.2.2).map fun symbol =>
        (Code.UNUSED_LABEL, symbol.2.1) := by
    intro b source
    simp only [Asm.UnusedLabel, SymbolTable.unused, List.filter_map, List.map_map]
    rfl
  rw [hseen, hseen, h.symbols]

theorem unreachableCode (h : Resembles a a' index line) :
    (Asm.UnreachableCode.run ⟨a', source'⟩).map located =
      (Asm.UnreachableCode.run ⟨a, source⟩).map located := by
  have hline : ∀ b : Assembly, ∀ source, (Asm.UnreachableCode.run ⟨b, source⟩).map located =
      (trailingLine b).toList.map fun line => (Code.UNREACHABLE_CODE, line) := by
    intro b source
    simp only [Asm.UnreachableCode, trailingLine]
    cases b.program.end_ with
    | none => rfl
    | some end_ => cases b.program.trailing <;> rfl
  rw [hline, hline, h.trailing]

theorem skipcondLabelOperand (h : Resembles a a' index line) :
    (SkipcondLabelOperand.run ⟨a', source'⟩).map located =
      (SkipcondLabelOperand.run ⟨a, source⟩).map located := by
  refine forall₂_flatMap h.items fun item item' hbeside => ?_
  have hopcode : effectiveOpcode item' = effectiveOpcode item := by
    unfold effectiveOpcode
    rw [hbeside.kind]
  rw [hopcode]
  split
  · rfl
  · rcases hbeside.operand_cases with
      ⟨hown, hown'⟩ | ⟨operand, operand', hown, hown', hsame | ⟨hunknown, hliteral⟩⟩
    · rw [hown, hown']
    · have hlabel := h.labels operand.text
      unfold SymbolTable.addressOf at hlabel
      rw [hown, hown']
      simp only [hsame]
      split
      · rfl
      · cases hget : a.symbols.get operand.text with
        | none =>
          rw [hget, Option.map_none, Option.map_eq_none_iff] at hlabel
          rw [hlabel]
        | some symbol =>
          rw [hget, Option.map_some, Option.map_eq_some_iff] at hlabel
          obtain ⟨symbol', hget', -⟩ := hlabel
          rw [hget']
          simp only [List.map_singleton, located, Diagnostic.withHelp, Diagnostic.withLabel,
            Diagnostic.warning, hbeside.line]
    · -- neither the name without a label nor the address is a label
      rw [SymbolTable.addressOf, Option.map_eq_none_iff] at hunknown
      simp only [hown, hown', hliteral, hunknown, if_true, ite_self]

/-- The word that was not there is masked or not, and nothing else changes. -/
theorem maskedSkipcond (h : Resembles a a' index line) :
    unrevealed line (MaskedSkipcond.run ⟨a', source'⟩) =
      (MaskedSkipcond.run ⟨a, source⟩).map located := by
  have hlength : a'.program.items.length = a.program.items.length := h.items.length_eq.symm
  simp only [MaskedSkipcond, overItems, hlength]
  refine unrevealed_flatMap fun i _ => ?_
  rcases forall₂_getElem? h.items i with ⟨hnone, hnone'⟩ | ⟨item, item', hitem, hitem', hbeside⟩
  · rw [hnone, hnone']
    rfl
  · have hopcode : effectiveOpcode item' = effectiveOpcode item := by
      unfold effectiveOpcode
      rw [hbeside.kind]
    simp only [hitem, hitem', hopcode]
    split
    · rfl
    · rename_i hskipCond
      by_cases hi : i = index
      · subst hi
        have hline := hbeside.line.trans ((h.line i item hitem).mpr rfl)
        have hzero : MemoryAddress.newMasked 0 &&& 0x3FF#12 = 0#12 := by decide
        rw [h.blank]
        simp only [hzero, if_true, List.map_nil]
        refine unrevealed_none fun d hd => .inr ?_
        split at hd
        · cases hd
        · split at hd
          · cases hd
          · split at hd
            · cases hd
            · rw [List.mem_singleton.mp hd, ← hline]
              rfl
      · have hother : item.line ≠ line := fun hline => hi ((h.line i item hitem).mp hline)
        rw [h.words i hi]
        cases a.words[i]? with
        | none => rfl
        | some word =>
          simp only
          split
          · rfl
          · rcases hbeside.operand_cases with ⟨hown, hown'⟩ | ⟨operand, operand', hown, hown', -⟩
            · rw [hown, hown']
              rfl
            · rw [hown, hown', unrevealed_all]
              · simp only [List.map_singleton, located, Diagnostic.withHelp, Diagnostic.warning,
                  hbeside.line]
              · intro d hd
                rw [List.mem_singleton.mp hd]
                rintro (hmem | heq)
                · exact masked_apart hmem
                · exact hother (hbeside.line.symm.trans (congrArg Prod.snd heq))

theorem graph_none (h : Resembles a a' index line) : graph ⟨a, source⟩ = none := by
  unfold graph
  rw [h.failed, if_pos (.inl Bool.false_ne_true)]

/-- Every lint goes on finding what it found, and the rest is what the word brings to light. -/
theorem lint_kept (h : Resembles a a' index line) (hwatched : Watched ⟨a', source'⟩) {lint : Lint}
    (hlint : lint ∈ Linter.new.lints) :
    unrevealed line (lint.run ⟨a', source'⟩) = (lint.run ⟨a, source⟩).map located := by
  have hcodes : ∀ d ∈ lint.run ⟨a', source'⟩, d.code = lint.code :=
    fun d hd => (lints_finds hwatched hlint hd).code
  -- errors keep the lints about the whole program from finding anything
  have hsilent : lint.code ∈ WHOLE_PROGRAM → lint.run ⟨a, source⟩ = [] →
      unrevealed line (lint.run ⟨a', source'⟩) = (lint.run ⟨a, source⟩).map located := by
    intro hwhole hnone
    rw [hnone, List.map_nil]
    refine unrevealed_none fun d hd => .inl ?_
    rw [located, hcodes d hd]
    exact hwhole
  have hsame : lint.code ∉ MASKED_SKIPCOND :: WHOLE_PROGRAM →
      (lint.run ⟨a', source'⟩).map located = (lint.run ⟨a, source⟩).map located →
      unrevealed line (lint.run ⟨a', source'⟩) = (lint.run ⟨a, source⟩).map located := by
    intro hother hlocated
    rw [← hlocated]
    refine unrevealed_all fun d hd hrevealed => hother ?_
    rw [← hcodes d hd]
    rcases hrevealed with hwhole | hmasked
    · exact List.mem_cons_of_mem _ hwhole
    · exact List.mem_cons.mpr (.inl (congrArg Prod.fst hmasked))
  have hgraph : graph ⟨a, source⟩ = none := h.graph_none
  rcases mem_lints hlint with
    rfl | rfl | rfl | rfl | rfl | rfl | rfl | rfl | rfl | rfl | rfl | rfl | rfl | rfl
  · exact hsilent (by decide) (by simp only [FallsIntoData, hgraph])
  · exact hsilent (by decide) (by simp only [FallsOffEnd, hgraph])
  · exact hsilent (by decide) (by simp only [JumpsOutsideProgram, hgraph])
  · exact hsilent (by decide) (by simp only [UnreachableInstruction, hgraph])
  · exact h.maskedSkipcond
  · exact hsame (by decide) h.skipcondLabelOperand
  · exact hsilent (by decide) (by simp only [JnsOverwritesCode, hgraph])
  · exact hsilent (by decide) (by simp only [SelfModifyingCode, hgraph])
  · exact hsame (by decide) h.missingHalt
  · exact hsame (by decide) h.nonCanonicalMnemonic
  · exact hsame (by decide) h.labelShadowsMnemonic
  · exact hsame (by decide) h.unusedLabel
  · exact hsame (by decide) h.unreachableCode
  · exact hsame (by decide) h.ignoredOperand

end Resembles

section Reworded
variable {source source' : Str} {index : Nat} {item : Item} {operand : Operand} {opcode : Opcode}
  {text : Str}

/-- The items of a program with another operand in it stand beside those of the program. -/
theorem items_beside (hitem : (Asm.assemble source).program.items[index]? = some item)
    (h : Unresolved (sketchOf source).addressOf item operand opcode)
    (hreworded : Reworded source source' item.line text)
    (hliteral : looksLikeAddressLiteral text = true) :
    List.Forall₂ (Beside (Asm.assemble source).symbols.addressOf)
      (Asm.assemble source).program.items (Asm.assemble source').program.items := by
  have houtlines := Asm.assemble_outlines source
  have houtlines' := Asm.assemble_outlines source'
  have hitems : (Asm.assemble source').program.items.map placedOf =
      (Asm.assemble source).program.items.map fun other =>
        (Asm.rewording item.line text).placed (placedOf other) := by
    have hsketch := congrArg Asm.Sketch.items (Asm.sketchOf_rewording hreworded.shapes)
    rw [houtlines'.items, hsketch, ← Function.comp_def, ← List.map_map, houtlines.items]
    rfl
  have hlength := congrArg List.length hitems
  rw [List.length_map, List.length_map] at hlength
  rw [List.forall₂_iff_get]
  refine ⟨hlength.symm, fun i hi hi' => ?_⟩
  have hplaced := congrArg (·[i]?) hitems
  simp only [List.getElem?_map, List.getElem?_eq_getElem hi, List.getElem?_eq_getElem hi',
    Option.map_some, Option.some.injEq] at hplaced
  simp only [List.get_eq_getElem]
  have hat := List.getElem?_eq_getElem hi
  have hread := (houtlines.readItems _ (List.getElem_mem hi)).wellRead
  have hread' := (houtlines'.readItems _ (List.getElem_mem hi')).wellRead
  generalize (Asm.assemble source).program.items[i] = x at hat hread hplaced ⊢
  generalize (Asm.assemble source').program.items[i] = y at hread' hplaced ⊢
  have hline : y.line = x.line := congrArg Asm.Placed.line hplaced
  have hstatement : (placedOf y).statement = if x.line = item.line then
      (placedOf x).statement.withOperand text else (placedOf x).statement :=
    congrArg Asm.Placed.statement hplaced
  have hmnemonic : y.mnemonic.text = x.mnemonic.text := by
    have hsame := congrArg Statement.mnemonic hstatement
    rw [apply_ite Statement.mnemonic] at hsame
    exact hsame.trans (ite_self _)
  refine ⟨hline, hmnemonic, ?_, ?_⟩
  · rw [hread'.2, hread'.1, hread.2, hread.1, hmnemonic]
  · have hoperand := congrArg Statement.operand hstatement
    by_cases hown : x.line = item.line
    · obtain rfl := Asm.line_index hat hitem hown
      rw [hitem, Option.some.injEq] at hat
      subst hat
      rw [if_pos rfl] at hoperand
      obtain ⟨operand', hoperand', rfl⟩ := Option.map_eq_some_iff.mp hoperand
      refine .inr ⟨operand, operand', h.own, hoperand', ?_, hliteral⟩
      rw [houtlines.addressOf]
      exact h.unknown
    · rw [if_neg hown] at hoperand
      exact .inl hoperand

theorem blank_word (hitem : (Asm.assemble source).program.items[index]? = some item)
    (h : Unresolved (sketchOf source).addressOf item operand opcode) :
    (Asm.assemble source).words[index]? = some 0 := by
  have houtlines := Asm.assemble_outlines source
  have hread := (houtlines.readItems item (List.mem_of_getElem? hitem)).wellRead
  rw [houtlines.words, Asm.Sketch.words, ← houtlines.items, List.map_map, List.getElem?_map, hitem,
    Option.map_some, Function.comp_apply, h.word hread]
  rfl

theorem unresolved_fails (hitem : (Asm.assemble source).program.items[index]? = some item)
    (h : Unresolved (sketchOf source).addressOf item operand opcode) :
    (Asm.assemble source).succeeded = false := by
  have houtlines := Asm.assemble_outlines source
  have hread := (houtlines.readItems item (List.mem_of_getElem? hitem)).wellRead
  rw [Bool.eq_false_iff]
  intro hok
  obtain ⟨word, hword, -⟩ := houtlines.word hok hitem
  rw [h.word hread] at hword
  cases hword

/-- The same labels are used, since the operand that was changed named none. -/
theorem symbols_seen (hitems : List.Forall₂ (Beside (Asm.assemble source).symbols.addressOf)
      (Asm.assemble source).program.items (Asm.assemble source').program.items)
    (hreworded : Reworded source source' item.line text) (name : Str) :
    ((Asm.assemble source').symbols.get name).map seen =
      ((Asm.assemble source).symbols.get name).map seen := by
  have hplaced : ((Asm.assemble source').symbols.get name).map (fun s => (s.address, s.line)) =
      ((Asm.assemble source).symbols.get name).map (fun s => (s.address, s.line)) := by
    rw [(Asm.assemble_outlines source').labels, (Asm.assemble_outlines source).labels,
      Asm.sketchOf_rewording hreworded.shapes]
    rfl
  cases hget : (Asm.assemble source).symbols.get name with
  | none =>
    rw [hget, Option.map_none, Option.map_eq_none_iff] at hplaced
    rw [hplaced]
  | some symbol =>
    rw [hget, Option.map_some, Option.map_eq_some_iff] at hplaced
    obtain ⟨symbol', hget', hsame⟩ := hplaced
    have hname := ((Asm.assemble_traced source).symbols name symbol hget).1
    have hname' := ((Asm.assemble_traced source').symbols name symbol' hget').1
    have hlabel : (Asm.assemble source).symbols.addressOf name ≠ none := by
      rw [SymbolTable.addressOf, hget]
      exact Option.some_ne_none _
    have hunused : symbol'.isUnused = symbol.isUnused := by
      rw [Symbol.isUnused, Symbol.isUnused, Asm.references_uses source hget,
        Asm.references_uses source' hget', Bool.eq_iff_iff, List.isEmpty_iff, List.isEmpty_iff]
      exact forall₂_eq_nil hitems fun x y hbeside => hbeside.uses_eq_nil hlabel
    rw [hget', Option.map_some, Option.map_some, seen, seen, hname, hname', hunused,
      show symbol'.line = symbol.line from congrArg Prod.snd hsame]

theorem trailingLine_some (source : Str) {end_ : Asm.End}
    (hend : (Asm.assemble source).program.end_ = some end_) :
    trailingLine (Asm.assemble source) = Asm.textAfter (source.splitOn '\n')
      (source.splitOn '\n').length end_.line := by
  have hlines : (Asm.assemble source).lines = .new source := rfl
  rw [trailingLine, hend, hlines, ← Asm.trailing_line hend]
  rfl

/-- What comes after `END` is where it was. -/
theorem trailing_kept (hitem : item ∈ (Asm.assemble source).program.items)
    (hreworded : Reworded source source' item.line text) :
    trailingLine (Asm.assemble source') = trailingLine (Asm.assemble source) := by
  have houtlines := Asm.assemble_outlines source
  obtain ⟨line', hlines⟩ := hreworded.lines
  have hended : (Asm.assemble source').program.end_.map Asm.End.line =
      (Asm.assemble source).program.end_.map Asm.End.line := by
    rw [(Asm.assemble_outlines source').ended, Asm.sketchOf_rewording hreworded.shapes,
      houtlines.ended]
    exact Option.map_map ..
  cases hend : (Asm.assemble source).program.end_ with
  | none =>
    rw [hend, Option.map_none, Option.map_eq_none_iff] at hended
    rw [trailingLine, trailingLine, hend, hended, Option.bind_none, Option.bind_none]
  | some end_ =>
    rw [hend, Option.map_some, Option.map_eq_some_iff] at hended
    obtain ⟨end', hend', hsame⟩ := hended
    have hafter : item.line < end_.line := by
      have hincreasing := (Asm.sketchOf_laid source).increasing
      rw [Asm.Sketch.statements, List.pairwise_append, ← houtlines.items] at hincreasing
      have hplaced := houtlines.ended
      rw [hend, Option.map_some, eq_comm, Option.map_eq_some_iff] at hplaced
      obtain ⟨p, hp, hline⟩ := hplaced
      rw [← hline]
      refine hincreasing.2.2 _ (List.mem_map_of_mem hitem) p ?_
      rw [hp]
      exact List.mem_singleton_self p
    rw [trailingLine_some source' hend', trailingLine_some source hend, hlines, List.length_set,
      hsame, Asm.textAfter_set _ hafter]

/-- A program in which the label of one operand is unknown, and the same with an address there. -/
theorem reworded_resembles {word : Word}
    (hitem : (Asm.assemble source).program.items[index]? = some item)
    (h : Unresolved (sketchOf source).addressOf item operand opcode)
    (hreworded : Reworded source source' item.line text)
    (hliteral : looksLikeAddressLiteral text = true)
    (hrepaired : Repaired (Asm.assemble source) (Asm.assemble source') index word) :
    Resembles (Asm.assemble source) (Asm.assemble source') index item.line where
  failed := unresolved_fails hitem h
  items := items_beside hitem h hreworded hliteral
  line := fun i other hother => by
    refine ⟨fun hline => Asm.line_index hother hitem hline, fun hi => ?_⟩
    subst hi
    rw [hitem, Option.some.injEq] at hother
    rw [hother]
  blank := blank_word hitem h
  words := fun i hi => by rw [hrepaired.words, List.getElem?_set_ne hi.symm]
  labels := hrepaired.labels
  symbols := Asm.iter_map (symbols_seen (items_beside hitem h hreworded hliteral) hreworded)
  trailing := trailing_kept (List.mem_of_getElem? hitem) hreworded

end Reworded

/-- The assembler's own findings do not wait for a word. -/
theorem assemble_apart {source : Str} {d : Diagnostic}
    (hd : d ∈ (Asm.assemble source).diagnostics) (line : Nat) : ¬ Revealed line (located d) := by
  have hspace := Asm.assemble_space hd
  have hlints : ∀ code ∈ MASKED_SKIPCOND :: WHOLE_PROGRAM, code.space ≠ Code.ASM := by decide
  rintro (hmem | heq)
  · exact hlints _ (List.mem_cons_of_mem _ hmem) hspace
  · have hcode : d.code = MASKED_SKIPCOND := congrArg Prod.fst heq
    exact hlints _ (hcode ▸ List.mem_cons_self) hspace

/-- At any levels, a linted file goes on finding what it found, but for what the assembler makes of
the word that was not there. -/
theorem check_kept {source source' : Str} (levels : Code → Option Level) (defaultLevel : Level)
    {index : Nat} (h : Resembles (Asm.assemble source) (Asm.assemble source') index line) :
    ∃ found, ({ Linter.new with levels, defaultLevel }.check source).diagnostics =
        (Asm.assemble source).diagnostics ++ found ∧
      unrevealed line ({ Linter.new with levels, defaultLevel }.check source').diagnostics =
        (Asm.assemble source').diagnostics.map located ++ found.map located := by
  refine ⟨_, Linter.check_diagnostics _ source, ?_⟩
  rw [Linter.check_diagnostics, unrevealed_append,
    unrevealed_all fun d hd => assemble_apart hd line]
  congr 1
  refine unrevealed_flatMap fun lint hlint => ?_
  have hkept : unrevealed line (lint.run ⟨Asm.assemble source', source'⟩) =
      (lint.run ⟨Asm.assemble source, source⟩).map located :=
    h.lint_kept ⟨Asm.assemble_traced source', rfl⟩ hlint
  simp only [Linter.produced]
  generalize Linter.levelOf _ lint.code = level
  split
  · rfl
  · rw [located_apply, ← hkept]
    unfold unrevealed
    rw [located_apply]

end MarieRs.Lint
