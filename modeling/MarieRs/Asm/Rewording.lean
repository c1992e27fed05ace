import MarieRs.Asm.Grammar
import MarieRs.Asm.Places
import MarieRs.Asm.Reports
import MarieRs.Asm.Rewriting

namespace MarieRs.Asm

def Statement.withOperand (s : Statement) (word : Str) : Statement :=
  { s with operand := some word }

/-- One line gets another operand. -/
def rewording (number : Nat) (word : Str) : Rewriting where
  names := Equiv.refl Str
  digit := fun _ => rfl
  space := fun _ => rfl
  statement := fun line s => if line = number then s.withOperand word else s
  label := fun line s => by split <;> simp [Statement.withOperand]
  end_ := fun line s => by split <;> rfl

theorem Rewriting.reports (r : Rewriting) (line : Nat) (shapes : List Shape) (sk : Sketch) :
    Sketch.reports line (r.shapes line shapes) (r.sketch sk) = Sketch.reports line shapes sk := by
  induction shapes generalizing line sk with
  | nil => rfl
  | cons shape rest ih =>
    have hcodes : ∀ sk : Sketch, (r.sketch sk).codes = sk.codes := fun sk => rfl
    rw [Rewriting.shapes, Sketch.reports, r.step, ih, Sketch.reports, hcodes, hcodes]

variable {source : Str}

/-- A line with another operand in it, as the first pass sees it. -/
theorem shapes_rewording {source' text' : Str} {number : Nat} {s : Statement} {word : Str}
    (hshape : (shapes source)[number]? = some (.statement s))
    (hlines : source'.splitOn '\n' = (source.splitOn '\n').set number text')
    (hshape' : shapeOf text' = .statement (s.withOperand word)) :
    shapes source' = (rewording number word).shapes 0 (shapes source) := by
  have hmap : shapes source' = (shapes source).set number (.statement (s.withOperand word)) := by
    rw [shapes, hlines, List.map_set, hshape', shapes]
  rw [hmap]
  apply List.ext_getElem?
  intro i
  rw [Rewriting.shapes_get, Nat.zero_add, List.getElem?_set]
  by_cases hi : number = i
  · subst hi
    have hlt := (List.getElem?_eq_some_iff.mp hshape).1
    rw [if_pos rfl, if_pos hlt, hshape, Option.map_some, Rewriting.shape, rewording]
    simp only [if_true]
  · have hkept : (rewording number word).shape i = id := by
      funext shape
      cases shape with
      | statement s => simp only [Rewriting.shape, rewording, if_neg (Ne.symm hi), id]
      | _ => rfl
    rw [if_neg hi, hkept, Option.map_id]
    rfl

theorem sketchOf_rewording {source' : Str} {number : Nat} {word : Str}
    (h : shapes source' = (rewording number word).shapes 0 (shapes source)) :
    sketchOf source' = (rewording number word).sketch (sketchOf source) := by
  have hrun := (rewording number word).run 0 (shapes source) {}
  rw [← h] at hrun
  exact hrun

def Parts.withOperand (p : Parts) (gap word : Str) : Parts :=
  { p with body.operand := some (gap, word) }

theorem Parts.Valid.withOperand {p : Parts} (h : p.Valid) {gap old word : Str}
    (hoperand : p.body.operand = some (gap, old)) (hword : IsWord word) :
    (p.withOperand gap word).Valid := by
  refine { h with body := { h.body with operand := ?_, plain := fun hnone => by cases hnone } }
  intro gap' word' heq
  cases heq
  obtain ⟨hgap, hspace, -⟩ := h.body.operand gap old hoperand
  exact ⟨hgap, hspace, hword⟩

/-- A source and another one with a word in the place of the operand of one of its lines. -/
structure Reworded (source source' : Str) (line : Nat) (word : Str) : Prop where
  shapes : shapes source' = (rewording line word).shapes 0 (shapes source)
  lines : ∃ text, source'.splitOn '\n' = (source.splitOn '\n').set line text

/-- The operand of an item can be written over. -/
theorem item_rewording {item : Item} (hitem : item ∈ (assemble source).program.items)
    {operand : Operand} (hoperand : item.operand = some operand)
    (horg : toAsciiLowercase item.mnemonic.text ≠ "org".toList) {word : Str} (hword : IsWord word) :
    ∃ front back, source = front ++ (operand.text ++ back) ∧ operand.text ≠ [] ∧
      operand.span = ⟨utf8Len front, utf8Len front + utf8Len operand.text⟩ ∧
      Reworded source (front ++ (word ++ back)) item.line word := by
  have houtlines := assemble_outlines source
  have hlaid := sketchOf_laid source
  have hplaced := mem_statements houtlines hitem
  have hshape := (hlaid.line _ hplaced).2
  obtain ⟨text, base, label, mnemonic, operand', comment, hat, hlabel, hmnemonic, hspan⟩ :=
    houtlines.readItems item hitem
  have hnamed : ∀ r ∈ label, (slice text r).any isWhitespace = false := by
    intro r hr
    refine (hlaid.named _ hplaced (slice text r) ?_).2
    rw [placedOf, hlabel, Option.mem_def.mp hr]
    rfl
  obtain ⟨p, hvalid, rfl, rfl, rfl, rfl⟩ := parts_of_statement hat.ordered (hat.form 0) hnamed
  have hline : (source.splitOn '\n')[item.line]? = some p.text := hat.line.line
  have hread : p.statement = (placedOf item).statement := by
    rw [shapes, List.getElem?_map] at hshape
    change ((source.splitOn '\n')[item.line]?).map shapeOf = _ at hshape
    rw [hline, Option.map_some, shapeOf_ranges hat.ordered (hat.form 0), Option.some.injEq,
      Ranges.shape, Shape.statement.injEq] at hshape
    rw [p.statement_eq, hshape]
  cases hbody : p.body.operand with
  | none =>
    have hnone : p.operandRange = none := by rw [Parts.operandRange, Body.operandRange, hbody]; rfl
    rw [hnone, hoperand] at hspan
    cases hspan
  | some found =>
    obtain ⟨gap, old⟩ := found
    obtain ⟨htext, hrange⟩ := Parts.operand_split hbody
    have hslice := p.slice_operand
    rw [hrange, hbody, Option.map_some, Option.map_some, Option.some.injEq] at hslice
    rw [hrange, hoperand, Option.map_some, Option.some.injEq, hslice] at hspan
    subst hspan
    have hat' : SpanAt source item.line base
        (p.lead ++ p.labelText ++ p.body.gap ++ p.body.mnemonic ++ gap) old p.body.tail _ :=
      ⟨by rw [← htext]; exact hat.line, charSpan_piece base htext rfl rfl⟩
    obtain ⟨front, back, hsource, hspan, hlines⟩ := hat'.swap
    have hnewline : '\n' ∉ word := fun hmem => by
      have hspace := hword.no_whitespace _ hmem
      revert hspace
      decide
    obtain ⟨-, -, hold⟩ := hvalid.body.operand gap old hbody
    refine ⟨front, back, hsource, hold.nonempty, hspan, ?_⟩
    have hvalid' := hvalid.withOperand hbody hword
    have htext' := (Parts.operand_split (p := p.withOperand gap word) rfl).1
    have hshape' := hvalid'.shapeOf (fun name hname => ?_) fun _ => ?_
    · refine ⟨shapes_rewording hshape (hlines word hnewline) ?_, _, hlines word hnewline⟩
      rw [← hread]
      exact (congrArg shapeOf htext').symm.trans hshape'
    · refine (hlaid.named _ hplaced name ?_).2
      rw [← hread]
      exact hname
    · have hsame : p.body.mnemonic = item.mnemonic.text := congrArg Statement.mnemonic hread
      exact hsame ▸ horg

theorem reports_unknown (line : Nat) (shapes : List Shape) (sk : Sketch) :
    ∀ found ∈ Sketch.reports line shapes sk, found.1 ≠ .UNKNOWN_LABEL := by
  induction shapes generalizing line sk with
  | nil => exact fun found hfound => by cases hfound
  | cons shape rest ih =>
    intro found hfound
    rw [Sketch.reports] at hfound
    rcases List.mem_append.mp hfound with hfound | hfound
    · obtain ⟨code, hcode, rfl⟩ := List.mem_map.mp hfound
      obtain ⟨new, hnew, hcodes⟩ := sk.step_reported line shape
      rw [hnew, List.drop_left] at hcode
      rintro rfl
      exact absurd (hcodes _ hcode) (by decide)
    · exact ih _ _ found hfound

/-- Only the word at an index is another. -/
structure Repaired (a a' : Assembly) (index : Nat) (word : Word) : Prop where
  origin : a'.origin = a.origin
  labels : ∀ name, a'.symbols.addressOf name = a.symbols.addressOf name
  words : a'.words = a.words.set index word

theorem wordOf_literal {labels : Labels} {s : Statement} {opcode : Opcode} {word : Str}
    {address : MemoryAddress}
    (hopcode : operandOpcode (classify (toAsciiLowercase s.mnemonic)) = some opcode)
    (htakes : opcode.takesOperand = true) (hliteral : looksLikeAddressLiteral word = true)
    (haddress : literalAddress word = some address) :
    wordOf labels (s.withOperand word) = .ok (Instruction.encode ⟨opcode, address⟩) := by
  have hword : wordOf labels (s.withOperand word) =
      instructionWord labels opcode (s.withOperand word).operand := wordOf_opcode hopcode
  rw [hword, Statement.withOperand]
  simp only [instructionWord, htakes, operandAddress, hliteral, haddress, not_true, if_false,
    if_true]

/-- No two items are on one line. -/
theorem line_index {i j : Nat} {item item' : Item}
    (hitem : (assemble source).program.items[i]? = some item)
    (hitem' : (assemble source).program.items[j]? = some item') (hline : item.line = item'.line) :
    i = j := by
  have hlines : ((assemble source).program.items.map Item.line).Nodup :=
    (item_lines (assemble_outlines source) (sketchOf_laid source)).imp Nat.ne_of_lt
  have hlt : i < ((assemble source).program.items.map Item.line).length := by
    rw [List.length_map]
    exact (List.getElem?_eq_some_iff.mp hitem).1
  refine (List.getElem?_inj hlt hlines).mp ?_
  rw [List.getElem?_map, List.getElem?_map, hitem, hitem', Option.map_some, Option.map_some, hline]

/-- An item between those before and those after it, on other lines. -/
theorem items_split {index : Nat} {item : Item}
    (hitem : (assemble source).program.items[index]? = some item) :
    ∃ front back, (sketchOf source).items = front ++ placedOf item :: back ∧
      front.length = index ∧ ∀ p ∈ front ++ back, p.line ≠ item.line := by
  have houtlines := assemble_outlines source
  have hplaced : (sketchOf source).items[index]? = some (placedOf item) := by
    rw [← houtlines.items, List.getElem?_map, hitem, Option.map_some]
  have hordered : (sketchOf source).items.Pairwise fun p q => p.line < q.line :=
    (sketchOf_laid source).increasing.sublist (List.sublist_append_left _ _)
  obtain ⟨hlt, heq⟩ := List.getElem?_eq_some_iff.mp hplaced
  have hsplit : (sketchOf source).items = (sketchOf source).items.take index ++
      placedOf item :: (sketchOf source).items.drop (index + 1) := by
    rw [← heq, List.getElem_cons_drop, List.take_append_drop]
  refine ⟨_, _, hsplit, List.length_take_of_le hlt.le, fun p hp => ?_⟩
  rw [hsplit, List.pairwise_append, List.pairwise_cons] at hordered
  rcases List.mem_append.mp hp with hp | hp
  · exact (hordered.2.2 p hp _ List.mem_cons_self).ne
  · exact (hordered.2.1.1 p hp).ne'

/-- Putting an operand that gives a word into an item changes the word, and takes away what was
reported of the item. -/
theorem assemble_rewording {source' : Str} {index : Nat} {item : Item} {operand : Str} {word : Word}
    (hitem : (assemble source).program.items[index]? = some item)
    (hshapes : shapes source' = (rewording item.line operand).shapes 0 (shapes source))
    (hword : wordOf (sketchOf source).addressOf
      ((placedOf item).statement.withOperand operand) = .ok word) :
    Repaired (assemble source) (assemble source') index word ∧
      ∃ before after,
        (assemble source).diagnostics.map located = before ++
          ((failure (wordOf (sketchOf source).addressOf (placedOf item).statement)).map
            (fun code => (code, item.line)) ++ after) ∧
        (assemble source').diagnostics.map located = before ++ after ∧
        (Code.UNKNOWN_LABEL, item.line) ∉ before ++ after := by
  have houtlines := assemble_outlines source
  have houtlines' := assemble_outlines source'
  have hsketch := sketchOf_rewording hshapes
  obtain ⟨front, back, hitems, hlength, hlines⟩ := items_split hitem
  have hkept : ∀ p : Placed, p.line ≠ item.line →
      (rewording item.line operand).placed p = p := by
    intro p hp
    simp only [Rewriting.placed, rewording, if_neg hp]
  have hfront : front.map (rewording item.line operand).placed = front :=
    (List.map_congr_left fun p hp => hkept p (hlines p (List.mem_append_left _ hp))).trans
      (List.map_id front)
  have hback : back.map (rewording item.line operand).placed = back :=
    (List.map_congr_left fun p hp => hkept p (hlines p (List.mem_append_right _ hp))).trans
      (List.map_id back)
  have hown : ((rewording item.line operand).placed (placedOf item)).statement =
      (placedOf item).statement.withOperand operand := if_pos rfl
  have hline : ((rewording item.line operand).placed (placedOf item)).line = item.line := rfl
  have hitems' : (sketchOf source').items =
      front ++ (rewording item.line operand).placed (placedOf item) :: back := by
    have hmap : (sketchOf source').items =
        (sketchOf source).items.map (rewording item.line operand).placed := by rw [hsketch]; rfl
    rw [hmap, hitems, List.map_append, List.map_cons, hfront, hback]
  have hlabels : (sketchOf source').addressOf = (sketchOf source).addressOf := by
    rw [hsketch]
    rfl
  have hreports : Sketch.reports 0 (shapes source') {} = Sketch.reports 0 (shapes source) {} := by
    rw [hshapes]
    exact (rewording item.line operand).reports 0 (shapes source) {}
  refine ⟨⟨?_, fun name => ?_, ?_⟩, Sketch.reports 0 (shapes source) {} ++
    (front.flatMap fun p => (failure (wordOf (sketchOf source).addressOf p.statement)).map
      fun code => (code, p.line)),
    back.flatMap fun p => (failure (wordOf (sketchOf source).addressOf p.statement)).map
      fun code => (code, p.line), ?_, ?_, ?_⟩
  · rw [houtlines.origin, houtlines'.origin, hsketch]
    rfl
  · rw [houtlines.addressOf, houtlines'.addressOf, hlabels]
  · rw [houtlines.words, houtlines'.words, Sketch.words, Sketch.words, hitems', hitems, hlabels,
      List.map_append, List.map_append, List.map_cons, List.map_cons, hown, hword, ← hlength,
      ← List.length_map, List.set_append_right _ _ le_rfl, Nat.sub_self, List.set_cons_zero]
    rfl
  · rw [assemble_located, Sketch.findings, hitems, List.flatMap_append, List.flatMap_cons]
    simp only [List.append_assoc]
    rfl
  · rw [assemble_located, hreports, Sketch.findings, hitems', hlabels, List.flatMap_append,
      List.flatMap_cons, hown, hword]
    simp only [List.append_assoc]
    rfl
  · simp only [List.mem_append, List.mem_flatMap, List.mem_map, Prod.mk.injEq, not_or]
    refine ⟨⟨fun hmem => reports_unknown 0 _ _ _ hmem rfl, ?_⟩, ?_⟩
    · rintro ⟨p, hp, code, -, -, hsame⟩
      exact hlines p (List.mem_append_left _ hp) hsame
    · rintro ⟨p, hp, code, -, -, hsame⟩
      exact hlines p (List.mem_append_right _ hp) hsame

end MarieRs.Asm
