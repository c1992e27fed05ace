import MarieRs.Asm.Ignored

namespace MarieRs.Asm

/-- The spans of an item at which something can be wrong with it. -/
def Item.Points (item : Item) (span : Span) : Prop :=
  span = item.span ∨ span = item.mnemonic.span ∨
    ∃ operand, item.operand = some operand ∧ span = operand.span

/-- The second pass reports what it finds wrong with an item at that item. -/
structure About (item : Item) (d : Diagnostic) : Prop where
  line : d.line = item.line
  span : item.Points d.span
  labels : d.labels = []

/-- All that was reported between two states is about one item. -/
def Adds (item : Item) (st st' : AssembleState) : Prop :=
  ∃ new, st'.diagnostics = st.diagnostics ++ new ∧ ∀ d ∈ new, About item d

theorem Adds.refl (item : Item) (st : AssembleState) : Adds item st st :=
  ⟨[], (List.append_nil _).symm, by simp⟩

theorem Adds.report {item : Item} {st : AssembleState} {d : Diagnostic} (h : About item d) :
    Adds item st (st.report d) := by
  refine ⟨[d], rfl, fun d' hd' => ?_⟩
  rw [List.mem_singleton.mp hd']
  exact h

theorem Adds.trans {item : Item} {st st' st'' : AssembleState} (h : Adds item st st')
    (h' : Adds item st' st'') : Adds item st st'' := by
  obtain ⟨first, hfirst, habout⟩ := h
  obtain ⟨later, hlater, habout'⟩ := h'
  refine ⟨first ++ later, by rw [hlater, hfirst, List.append_assoc], fun d hd => ?_⟩
  rcases List.mem_append.mp hd with hd | hd
  · exact habout d hd
  · exact habout' d hd

theorem assembleLiteral_adds (item : Item) (radix : Radix) (st : AssembleState) :
    Adds item st (assembleLiteral item radix st).2 := by
  unfold assembleLiteral
  cases hoperand : item.operand with
  | none => exact .report ⟨rfl, .inl rfl, rfl⟩
  | some operand =>
    have hpoints : item.Points operand.span := .inr (.inr ⟨operand, hoperand, rfl⟩)
    simp only
    split
    · exact .refl item st
    · exact .report ⟨rfl, hpoints, rfl⟩
    · exact .report ⟨rfl, hpoints, rfl⟩

/-- An alias keeps the operand, or puts one in its place that stands at the mnemonic. -/
theorem resolveAlias_adds (item : Item) (st : AssembleState) :
    Adds item st (resolveAlias item st).2 ∧ ∀ opcode operand,
      (resolveAlias item st).1 = some (opcode, some operand) → item.Points operand.span := by
  have hunknown : Adds item st (st.report (.error .UNKNOWN_MNEMONIC item.mnemonic.span item.line
      ("Unknown operator '" ++ String.ofList item.mnemonic.lowercase ++ "'."))) :=
    .report ⟨rfl, .inr (.inl rfl), rfl⟩
  have hkept : ∀ (opcode opcode' : Opcode) operand,
      some (opcode, item.operand) = some (opcode', some operand) → item.Points operand.span := by
    intro opcode opcode' operand h
    obtain ⟨-, hoperand⟩ := Prod.mk.inj (Option.some.inj h)
    exact .inr (.inr ⟨operand, hoperand, rfl⟩)
  unfold resolveAlias
  cases item.mnemonic.kind with
  | opcode opcode => exact ⟨.refl item st, hkept opcode⟩
  | unknown => exact ⟨hunknown, by simp⟩
  | directive directive =>
    cases directive with
    | adr => exact ⟨.refl item st, hkept .jnS⟩
    | clear =>
      refine ⟨.refl item st, fun opcode operand h => ?_⟩
      cases h
      exact .inr (.inl rfl)
    | org | end_ => exact ⟨hunknown, by simp⟩
    | dec | oct | hex => exact ⟨.refl item st, by simp⟩

theorem resolveOperand_adds {item : Item} {operand : Operand} (h : item.Points operand.span)
    (st : AssembleState) : Adds item st (resolveOperand item operand st).2 := by
  rw [resolveOperand]
  split
  · simp only [parseAddressLiteral]
    split
    · exact .refl item st
    · exact .report ⟨rfl, h, rfl⟩
  · split
    · exact ⟨[], (List.append_nil _).symm, by simp⟩
    · refine ⟨[_], rfl, fun d hd => ?_⟩
      rw [List.mem_singleton.mp hd]
      exact ⟨rfl, h, rfl⟩

theorem assembleInstruction_adds (item : Item) (st : AssembleState) :
    Adds item st (assembleInstruction item st).2 := by
  obtain ⟨halias, hpoints⟩ := resolveAlias_adds item st
  unfold assembleInstruction
  generalize resolveAlias item st = result at halias hpoints
  obtain ⟨found, st'⟩ := result
  cases found with
  | none => exact halias
  | some found =>
    obtain ⟨opcode, operand⟩ := found
    cases operand with
    | none =>
      simp only
      split
      · exact halias.trans (.report ⟨rfl, .inl rfl, rfl⟩)
      · exact halias
    | some operand =>
      have hoperand := hpoints opcode operand rfl
      have hresolve := resolveOperand_adds hoperand st'
      simp only
      split
      · exact halias.trans (.report ⟨rfl, hoperand, rfl⟩)
      · generalize resolveOperand item operand st' = result at hresolve
        obtain ⟨address, st''⟩ := result
        cases address <;> exact halias.trans hresolve

/-- One item of the second pass. -/
theorem assembleItem_adds (item : Item) (st : AssembleState) :
    Adds item st (assembleItem item st).2 := by
  unfold assembleItem
  split
  · split
    · exact assembleLiteral_adds item _ st
    · exact assembleInstruction_adds item st
  · exact assembleInstruction_adds item st

/-- All items of the second pass. -/
theorem assembleItems_adds (items : List Item) (st : AssembleState) :
    ∃ new, (assembleItems items st).2.diagnostics = st.diagnostics ++ new ∧
      ∀ d ∈ new, ∃ item ∈ items, About item d := by
  induction items generalizing st with
  | nil => exact ⟨[], by simp [assembleItems], by simp⟩
  | cons item items ih =>
    obtain ⟨first, hfirst, habout⟩ := assembleItem_adds item st
    obtain ⟨later, hlater, habouts⟩ := ih (assembleItem item st).2
    refine ⟨first ++ later, ?_, fun d hd => ?_⟩
    · rw [← List.append_assoc, ← hfirst, ← hlater]
      rfl
    · rcases List.mem_append.mp hd with hd | hd
      · exact ⟨item, List.mem_cons_self, habout d hd⟩
      · obtain ⟨other, hother, habout⟩ := habouts d hd
        exact ⟨other, List.mem_cons_of_mem _ hother, habout⟩

def located (d : Diagnostic) : Code × Nat := (d.code, d.line)

theorem map_located {new : List Diagnostic} {line : Nat} (h : ∀ d ∈ new, d.line = line) :
    new.map located = (new.map Diagnostic.code).map fun code => (code, line) := by
  rw [List.map_map]
  apply List.map_congr_left
  intro d hd
  rw [located, h d hd]
  rfl

namespace Sketch

/-- What the first pass reports on the lines from number `line` on. -/
def reports (line : Nat) : List Shape → Sketch → List (Code × Nat)
  | [], _ => []
  | shape :: rest, sk =>
    (((sk.step line shape).codes.drop sk.codes.length).map fun code => (code, line)) ++
      reports (line + 1) rest (sk.step line shape)

theorem reports_append (line : Nat) (first rest : List Shape) (sk : Sketch) :
    reports line (first ++ rest) sk =
      reports line first sk ++ reports (line + first.length) rest (run line first sk) := by
  induction first generalizing line sk with
  | nil => rfl
  | cons shape first ih =>
    rw [List.cons_append, reports, ih, reports, run, List.append_assoc, List.length_cons]
    congr 3
    omega

/-- What the second pass reports. -/
def findings (sk : Sketch) : List (Code × Nat) :=
  sk.items.flatMap fun p =>
    (failure (wordOf sk.addressOf p.statement)).map fun code => (code, p.line)

end Sketch

theorem stateUpTo_located {source : Str} {number : Nat}
    (h : number ≤ (source.splitOn '\n').length) :
    (stateUpTo source number).diagnostics.map located =
      Sketch.reports 0 ((shapes source).take number) {} := by
  induction number with
  | zero => rfl
  | succ number ih =>
    have hle := Nat.le_of_succ_le h
    obtain ⟨text, htext⟩ : ∃ text, (source.splitOn '\n')[number]? = some text :=
      ⟨_, List.getElem?_eq_getElem (Nat.lt_of_succ_le h)⟩
    obtain ⟨new, hnew, hlines⟩ := parseLine_reports source text (stateUpTo source number)
    rw [(stateUpTo_place hle).1] at hlines
    have hcodes := (stateUpTo_refines h).codes
    rw [stateUpTo_succ htext, hnew, List.map_append, (stateUpTo_refines hle).codes,
      sketchUpTo_succ htext] at hcodes
    have hshape : (shapes source)[number]? = some (shapeOf text) := by
      rw [shapes, List.getElem?_map, htext, Option.map_some]
    have hlength : ((shapes source).take number).length = number := by
      rw [List.length_take, shapes, List.length_map]
      exact Nat.min_eq_left hle
    have hrun : Sketch.run 0 ((shapes source).take number) {} = sketchUpTo source number := by
      rw [sketchUpTo, shapes, List.map_take]
    rw [stateUpTo_succ htext, hnew, List.map_append, ih hle, List.take_add_one, hshape,
      Sketch.reports_append, hlength, Nat.zero_add, hrun, map_located hlines]
    simp only [Option.toList_some, Sketch.reports, List.append_nil, ← hcodes, List.drop_left]

/-- One item of the second pass. -/
theorem assembleItem_located {item : Item} (hread : WellRead item) (st : AssembleState) :
    (assembleItem item st).2.diagnostics.map located = st.diagnostics.map located ++
      (failure (wordOf st.symbols.addressOf (placedOf item).statement)).map
        fun code => (code, item.line) := by
  obtain ⟨new, hnew, -, hcodes⟩ := (assembleItem_spec hread st).2.reported
  obtain ⟨new', hnew', habout⟩ := assembleItem_adds item st
  rw [hnew, List.append_cancel_left_eq] at hnew'
  subst hnew'
  rw [hnew, List.map_append, map_located fun d hd => (habout d hd).line, hcodes]

/-- All items of the second pass. -/
theorem assembleItems_located {items : List Item} (hread : ∀ item ∈ items, WellRead item)
    (st : AssembleState) :
    (assembleItems items st).2.diagnostics.map located = st.diagnostics.map located ++
      items.flatMap fun item =>
        (failure (wordOf st.symbols.addressOf (placedOf item).statement)).map
          fun code => (code, item.line) := by
  induction items generalizing st with
  | nil => exact (List.append_nil _).symm
  | cons item items ih =>
    have hitem := hread item List.mem_cons_self
    have hrest := ih (fun other hother => hread other (List.mem_cons_of_mem _ hother))
      (assembleItem item st).2
    rw [(assembleItem_spec hitem st).2.addressOf, assembleItem_located hitem,
      List.append_assoc] at hrest
    exact hrest

/-- The first pass reports on any source what its sketch tells. -/
theorem parse_located (source : Str) :
    (parse source).2.map located = Sketch.reports 0 (shapes source) {} := by
  have hlength : (source.splitOn '\n').length = (shapes source).length := by
    rw [shapes, List.length_map]
  have hparse := stateUpTo_located (le_refl (source.splitOn '\n').length)
  rw [hlength, List.take_length] at hparse
  rw [stateUpTo, ← hlength, List.take_length] at hparse
  exact hparse

/-- So do both passes. -/
theorem assemble_located (source : Str) : (assemble source).diagnostics.map located =
    Sketch.reports 0 (shapes source) {} ++ (sketchOf source).findings := by
  obtain ⟨st, hparse, hrefines⟩ := parse_refines source
  have hread : ∀ item ∈ st.out.program.items, WellRead item :=
    fun item hitem => (hrefines.readItems item hitem).wellRead
  have haddressOf := hrefines.addressOf
  have hfirst := parse_located source
  have hitems := assembleItems_located hread ⟨st.out.symbols, st.diagnostics⟩
  rw [hparse] at hfirst
  rw [haddressOf, hfirst] at hitems
  simp only [assemble, hparse]
  rw [hitems, Sketch.findings, ← hrefines.items, List.flatMap_map]
  rfl

end MarieRs.Asm
