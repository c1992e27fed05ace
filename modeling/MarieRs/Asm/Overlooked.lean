import MarieRs.Asm.LineEndings
import MarieRs.Asm.Marks

namespace MarieRs.Asm

variable {source text run : Str} {number : Nat}

theorem splitOn_insertLeading (hline : (source.splitOn '\n')[number]? = some text)
    (hrun : '\n' ∉ run) : (insertLeading run number source).splitOn '\n' =
      (source.splitOn '\n').set number (run ++ text) := by
  have hset : (source.splitOn '\n').modify number (run ++ ·) =
      (source.splitOn '\n').set number (run ++ text) := by
    apply List.ext_getElem?
    intro i
    rw [List.getElem?_modify, List.getElem?_set]
    by_cases hi : number = i
    · subst hi
      rw [if_pos rfl, if_pos (List.getElem?_eq_some_iff.mp hline).1, hline]
      simp
    · simp [hi]
  have hlines : ∀ line ∈ (source.splitOn '\n').set number (run ++ text), '\n' ∉ line := by
    intro line hmem
    rcases List.mem_or_eq_of_mem_set hmem with hmem | rfl
    · exact splitOn_line hmem
    · rw [List.mem_append, not_or]
      exact ⟨hrun, splitOn_line (List.mem_of_getElem? hline)⟩
  rw [insertLeading, hset]
  apply List.splitOn_intercalate '\n' hlines
  rw [ne_eq, List.set_eq_nil_iff]
  exact List.splitOn_ne_nil _ _

theorem shapes_insertLeading (hline : (source.splitOn '\n')[number]? = some text)
    (hrun : '\n' ∉ run) : shapes (insertLeading run number source) =
      (shapes source).set number (shapeOf (run ++ text)) := by
  rw [shapes, splitOn_insertLeading hline hrun, List.map_set, shapes]

/-- All lines but one are the same, and so is the state before that one. -/
theorem sketchOf_insertLeading (hline : (source.splitOn '\n')[number]? = some text)
    (hrun : '\n' ∉ run) : sketchOf (insertLeading run number source) =
      Sketch.run (number + 1) ((shapes source).drop (number + 1))
        ((sketchUpTo source number).step number (shapeOf (run ++ text))) := by
  have hlines := splitOn_insertLeading hline hrun
  have hlt := (List.getElem?_eq_some_iff.mp hline).1
  have hmarked : ((insertLeading run number source).splitOn '\n')[number]? =
      some (run ++ text) := by
    rw [hlines, List.getElem?_set_self hlt]
  have hbefore : sketchUpTo (insertLeading run number source) number =
      sketchUpTo source number := by
    rw [sketchUpTo, hlines, List.take_set_of_le (le_refl number), sketchUpTo]
  rw [sketchOf_upTo hmarked, hbefore, shapes_insertLeading hline hrun,
    List.drop_set_of_lt (Nat.lt_succ_self number)]

/-- What is compared of two assemblies, in their sketches. -/
structure Sketch.Matches (sk sk' : Sketch) : Prop where
  origin : sk.originAddress = sk'.originAddress
  words : sk.words = sk'.words
  labels : sk.addressOf = sk'.addressOf
  codes : sk.codes ++ sk.failures = sk'.codes ++ sk'.failures

theorem unchanged_iff (source source' : Str) : Unchanged (assemble source) (assemble source') ↔
    (sketchOf source).Matches (sketchOf source') := by
  have h := assemble_outlines source
  have h' := assemble_outlines source'
  constructor
  · intro hsame
    refine ⟨?_, ?_, ?_, ?_⟩
    · rw [← h.origin, hsame.origin, h'.origin]
    · rw [← h.words, hsame.words, h'.words]
    · funext name
      rw [← h.addressOf, hsame.labels, h'.addressOf]
    · rw [← h.codes, hsame.codes, h'.codes]
  · intro hsame
    refine ⟨⟨?_, ?_, ?_⟩, ?_⟩
    · rw [h.origin, hsame.origin, h'.origin]
    · rw [h.words, hsame.words, h'.words]
    · intro name
      rw [h.addressOf, hsame.labels, h'.addressOf]
    · rw [h.codes, hsame.codes, h'.codes]

theorem Sketch.Matches.refl (sk : Sketch) : sk.Matches sk := ⟨rfl, rfl, rfl, rfl⟩

/-- Where a line is a statement with the mark and without it, it does not matter which: there is
no room for either, the label of either is refused for one reason, or it is for want of the
operator that the line fails. -/
def Overlooked (sk : Sketch) (s s' : Statement) : Prop :=
  MemoryAddress.tryNew (sk.originAddress.toNat + sk.items.length) = none ∨
    (∃ code, s.label.bind (rejection sk.labels) = some code ∧
      s'.label.bind (rejection sk.labels) = some code) ∨
    s.label = none ∧ noOperator s = true

/-- No mark is inserted, the line is not read any more, or the mark is overlooked. -/
def Harmless (source : Str) (number : Nat) (run text : Str) : Prop :=
  BYTE_ORDER_MARK ∉ run ∨ (sketchUpTo source number).stopped = true ∨
    ∃ s s', shapeOf text = .statement s ∧ shapeOf (run ++ text) = .statement s' ∧
      Overlooked (sketchUpTo source number) s s'

theorem kept_digit (name : Str) :
    ((Equiv.refl Str name).head?).any isAsciiDigit = (name.head?).any isAsciiDigit := rfl

theorem kept_space (name : Str) :
    (Equiv.refl Str name).any isWhitespace = name.any isWhitespace := rfl

/-- An operator that there is not becomes another one. -/
def misreading (number : Nat) (rest : Str) (operand : Option Str) : Rewriting where
  names := Equiv.refl Str
  digit := kept_digit
  space := kept_space
  statement := fun line s =>
    if line = number ∧ noOperator s = true then ⟨s.label, BYTE_ORDER_MARK :: rest, operand⟩ else s
  label := fun line s => by
    split
    · exact (Option.map_id_apply (x := s.label)).symm
    · exact (Option.map_id_apply (x := s.label)).symm
  end_ := fun line s => by
    split
    · rename_i h
      rw [noOperator_isEnd h.2, noOperator_isEnd (noOperator_mark s.label rest operand)]
    · rfl

theorem wordOf_misreading (labels : Labels) (number : Nat) (rest : Str) (operand : Option Str)
    (line : Nat) (s : Statement) :
    wordOf labels ((misreading number rest operand).statement line s) = wordOf labels s := by
  simp only [misreading]
  split
  · rename_i h
    rw [wordOf_noOperator labels h.2,
      wordOf_noOperator labels (noOperator_mark s.label rest operand)]
  · rfl

theorem misreading_matches (sk : Sketch) (number : Nat) (rest : Str) (operand : Option Str) :
    sk.Matches ((misreading number rest operand).sketch sk) := by
  have hitems : ((misreading number rest operand).sketch sk).items =
      sk.items.map (misreading number rest operand).placed := rfl
  have hlabels : ((misreading number rest operand).sketch sk).addressOf = sk.addressOf := rfl
  refine ⟨rfl, ?_, rfl, ?_⟩
  · rw [Sketch.words, Sketch.words, hitems, hlabels, List.map_map]
    apply List.map_congr_left
    intro p _
    rw [Function.comp_apply, Rewriting.placed, wordOf_misreading]
  · rw [Sketch.failures, Sketch.failures, hitems, hlabels, List.flatMap_map]
    simp only [Rewriting.placed, wordOf_misreading]
    rfl

theorem sketchOf_misreading (hline : (source.splitOn '\n')[number]? = some text)
    (hrun : '\n' ∉ run) {s : Statement} (hs : shapeOf text = .statement s)
    (hoperator : noOperator s = true) {rest : Str} {operand : Option Str}
    (hmarked : shapeOf (run ++ text) = .statement ⟨s.label, BYTE_ORDER_MARK :: rest, operand⟩) :
    sketchOf (insertLeading run number source) =
      (misreading number rest operand).sketch (sketchOf source) := by
  have hshape : (shapes source)[number]? = some (.statement s) := by
    rw [shapes, List.getElem?_map, hline, Option.map_some, hs]
  have hshapes : shapes (insertLeading run number source) =
      (misreading number rest operand).shapes 0 (shapes source) := by
    rw [shapes_insertLeading hline hrun, hmarked]
    apply List.ext_getElem?
    intro i
    rw [Rewriting.shapes_get, Nat.zero_add, List.getElem?_set]
    by_cases hi : number = i
    · subst hi
      rw [if_pos rfl, if_pos (List.getElem?_eq_some_iff.mp hshape).1, hshape, Option.map_some,
        Rewriting.shape, misreading]
      simp only [hoperator, and_self, if_true]
    · have hkept : (misreading number rest operand).shape i = id := by
        funext shape
        cases shape with
        | statement s => simp [Rewriting.shape, misreading, Ne.symm hi]
        | _ => rfl
      rw [if_neg hi, hkept, Option.map_id]
      rfl
  have hrun := (misreading number rest operand).run 0 (shapes source) {}
  rw [← hshapes] at hrun
  exact hrun

/-- A line that is there is taken as it is without the mark, or as one that fails alike. -/
theorem Harmless.unchanged (hline : (source.splitOn '\n')[number]? = some text)
    (hform : shapeOf text ≠ .malformed) (hrun : Leading run)
    (h : Harmless source number run text) :
    Unchanged (assemble source) (assemble (insertLeading run number source)) := by
  rw [unchanged_iff]
  have hsame : (sketchUpTo source number).step number (shapeOf text) =
      (sketchUpTo source number).step number (shapeOf (run ++ text)) →
        (sketchOf source).Matches (sketchOf (insertLeading run number source)) := by
    intro hstep
    rw [sketchOf_insertLeading hline hrun.newline, ← hstep, ← sketchOf_upTo hline]
    exact .refl _
  by_cases hmark : BYTE_ORDER_MARK ∈ run
  · rcases h with hnone | hstopped | ⟨s, s', hs, hs', hover⟩
    · exact absurd hmark hnone
    · apply hsame
      rw [Sketch.step_stopped hstopped, Sketch.step_stopped hstopped]
    · cases hstopped : (sketchUpTo source number).stopped with
      | true =>
        apply hsame
        rw [Sketch.step_stopped hstopped, Sketch.step_stopped hstopped]
      | false =>
        rcases hover with hfull | ⟨code, hcode, hcode'⟩ | ⟨hlabel, hoperator⟩
        · apply hsame
          rw [Sketch.step_running hstopped, Sketch.step_running hstopped, hs, hs']
          simp only [Sketch.stepForm, Sketch.stepStatement, hfull]
        · apply hsame
          rw [Sketch.step_running hstopped, Sketch.step_running hstopped, hs, hs']
          simp only [Sketch.stepForm, Sketch.stepStatement, hcode, hcode']
        · obtain ⟨before, after, rfl, hbefore, hafter⟩ := hrun.split hmark
          have hcomma : NoComma text := by
            rcases shapeOf_cases hform with ⟨hcomma, -⟩ | ⟨p, name, -, -, hname, hp⟩
            · exact hcomma
            · rw [hs] at hp
              cases hp
              exact absurd hlabel (by simp [Parts.statement, hname])
          rcases shapeOf_mark_plain hbefore hafter hcomma with hbad | ⟨rest, operand, hmarked⟩
          · rw [hs'] at hbad
            cases hbad
          · rw [← hlabel] at hmarked
            rw [sketchOf_misreading hline hrun.newline hs hoperator hmarked]
            exact misreading_matches _ _ _ _
  · apply hsame
    rw [shapeOf_indent (hrun.whitespace hmark) hform]

end MarieRs.Asm
