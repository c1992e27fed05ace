import MarieRs.Asm.Grammar
import MarieRs.Asm.Meaning
import MarieRs.Asm.Room

namespace MarieRs.Asm

/-- The statement that an instruction prints as. -/
def printedStatement (i : Instruction) : Statement where
  label := none
  mnemonic := i.opcode.mnemonic.toList
  operand := if i.opcode.takesOperand then some (hexPadded 3 i.operand.toNat) else none

/-- Each instruction on a line of its own. -/
def printed (instructions : List Instruction) : Str :=
  joined (instructions.map fun i => i.display.toList)

theorem hexDigit_facts : ∀ d < 16, isAsciiHexdigit (hexDigit d) = true ∧
    isAsciiDigit (hexDigit d) = decide (d < 10) ∧ toDigit 16 (hexDigit d) = some d ∧
    isBare (hexDigit d) = true ∧ (hexDigit d).utf8Size = 1 := by decide

theorem hexPadded_three (n : Nat) :
    hexPadded 3 n = [hexDigit (n / 256 % 16), hexDigit (n / 16 % 16), hexDigit (n % 16)] := by
  simp [hexPadded, List.range_succ]

theorem hexPadded_digits {n : Nat} {c : Char} (h : c ∈ hexPadded 3 n) :
    ∃ d < 16, c = hexDigit d := by
  rw [hexPadded_three] at h
  simp only [List.mem_cons, List.not_mem_nil, or_false] at h
  rcases h with rfl | rfl | rfl
  · exact ⟨_, Nat.mod_lt _ (by decide), rfl⟩
  · exact ⟨_, Nat.mod_lt _ (by decide), rfl⟩
  · exact ⟨_, Nat.mod_lt _ (by decide), rfl⟩

theorem hexPadded_word (n : Nat) : IsWord (hexPadded 3 n) := by
  have hbare : (hexPadded 3 n).all isBare = true := by
    rw [List.all_eq_true]
    intro c hc
    obtain ⟨d, hd, rfl⟩ := hexPadded_digits hc
    exact (hexDigit_facts d hd).2.2.2.1
  rw [hexPadded_three] at hbare ⊢
  rw [List.all_cons, Bool.and_eq_true] at hbare
  exact ⟨_, _, rfl, bare_word hbare.1, hbare.2⟩

/-- Three digits are read as an address if the first is a decimal one. -/
theorem looksLike_hexPadded (a : MemoryAddress) :
    looksLikeAddressLiteral (hexPadded 3 a.toNat) = decide (a.toNat < 0xA00) := by
  have hlt := a.isLt
  have hall : ∀ d < 16, isAsciiHexdigit (hexDigit d) = true := fun d hd => (hexDigit_facts d hd).1
  rw [hexPadded_three, looksLikeAddressLiteral, (hexDigit_facts _ (Nat.mod_lt _ (by decide))).2.1]
  simp only [List.all_cons, List.all_nil, hall _ (Nat.mod_lt _ (by decide : 0 < 16)), Bool.and_true]
  congr 1
  apply propext
  omega

theorem ofDigits_hexPadded (a : MemoryAddress) : ofDigits 16 (hexPadded 3 a.toNat) = a.toNat := by
  have hlt := a.isLt
  have hdigit : ∀ d < 16, (toDigit 16 (hexDigit d)).getD 0 = d := fun d hd => by
    rw [(hexDigit_facts d hd).2.2.1, Option.getD_some]
  rw [hexPadded_three, ofDigits]
  simp only [List.foldl_cons, List.foldl_nil, hdigit _ (Nat.mod_lt _ (by decide : 0 < 16))]
  omega

/-- What was printed as an address reads as that address. -/
theorem literalAddress_hexPadded (a : MemoryAddress) :
    literalAddress (hexPadded 3 a.toNat) = some a := by
  have hlt := a.isLt
  have hvalue : ofDigits 16 ((hexPadded 3 a.toNat).dropWhile (· == '0')) = a.toNat := by
    rw [ofDigits_zeros, ofDigits_hexPadded]
  have hstripped : ∀ c ∈ (hexPadded 3 a.toNat).dropWhile (· == '0'), ∃ d < 16, c = hexDigit d :=
    fun c hc => hexPadded_digits ((List.dropWhile_suffix _).subset hc)
  have hlength : utf8Len ((hexPadded 3 a.toNat).dropWhile (· == '0')) ≤ 3 := by
    obtain ⟨zeros, hzeros⟩ := List.dropWhile_suffix (l := hexPadded 3 a.toNat) (· == '0')
    have hthree : utf8Len (hexPadded 3 a.toNat) = 3 := by
      have hone : ∀ d < 16, (hexDigit d).utf8Size = 1 := fun d hd => (hexDigit_facts d hd).2.2.2.2
      rw [hexPadded_three]
      simp only [utf8Len_cons, utf8Len_nil, hone _ (Nat.mod_lt _ (by decide : 0 < 16))]
    have hsum := congrArg utf8Len hzeros
    rw [utf8Len_append, hthree] at hsum
    omega
  have hnew : MemoryAddress.tryNew a.toNat = some a := MemoryAddress.tryNew_eq_some.mpr rfl
  rw [literalAddress]
  generalize (hexPadded 3 a.toNat).dropWhile (· == '0') = digits at hvalue hstripped hlength
  by_cases hnil : digits = []
  · have hzero : a.toNat = 0 := by
      rw [← hvalue, hnil]
      rfl
    rw [hzero] at hnew
    simp only [hnil, if_true, Option.bind_some, hnew]
  · have hdigits : digits.all (fun c => (toDigit 16 c).isSome) = true := by
      rw [List.all_eq_true]
      intro c hc
      obtain ⟨d, hd, rfl⟩ := hstripped c hc
      rw [(hexDigit_facts d hd).2.2.1, Option.isSome_some]
    have hparse : fromStrRadix (2 ^ 16 - 1) 16 digits = some a.toNat := by
      rw [fromStrRadix, if_neg (by simp [hnil, hdigits]), hvalue, if_pos (by omega)]
    simp only [if_neg hnil, if_pos hlength, hparse, Option.bind_some, hnew]

/-- The parts of the line that an instruction prints as. -/
def printedParts (i : Instruction) : Parts where
  lead := []
  label := none
  body :=
    { gap := []
      mnemonic := i.opcode.mnemonic.toList
      operand := if i.opcode.takesOperand then some ([' '], hexPadded 3 i.operand.toNat) else none
      tail := [] }

theorem printedParts_text (i : Instruction) : (printedParts i).text = i.display.toList := by
  cases htakes : i.opcode.takesOperand with
  | true =>
    simp [printedParts, Parts.text, Parts.labelText, Body.text, Body.operandText,
      Instruction.display, MemoryAddress.display, htakes]
  | false =>
    simp [printedParts, Parts.text, Parts.labelText, Body.text, Body.operandText,
      Instruction.display, htakes]

theorem mnemonic_word (opcode : Opcode) : IsWord opcode.mnemonic.toList := by
  cases opcode <;> exact ⟨_, _, rfl, by decide, by decide⟩

theorem printedParts_valid (i : Instruction) : (printedParts i).Valid where
  lead := rfl
  label := by simp [printedParts]
  body :=
    { gap := rfl
      mnemonic := mnemonic_word i.opcode
      operand := by
        intro gap word hoperand
        cases htakes : i.opcode.takesOperand with
        | true =>
          simp only [printedParts, htakes, if_true, Option.some.injEq, Prod.mk.injEq] at hoperand
          obtain ⟨rfl, rfl⟩ := hoperand
          exact ⟨by simp, by decide, hexPadded_word _⟩
        | false => simp [printedParts, htakes] at hoperand
      tail := rfl
      plain := fun _ => rfl }
  plain := by
    intro _
    refine ⟨rfl, ?_⟩
    change i.opcode.mnemonic.toList.head? ≠ some '/'
    cases i.opcode <;> decide

theorem shapeOf_display (i : Instruction) :
    shapeOf i.display.toList = .statement (printedStatement i) := by
  have horg : toAsciiLowercase i.opcode.mnemonic.toList ≠ "org".toList := by
    cases i.opcode <;> decide
  have hshape := (printedParts_valid i).shapeOf (by simp [printedParts]) fun _ => horg
  rw [printedParts_text] at hshape
  rw [hshape, Parts.statement, printedStatement]
  cases htakes : i.opcode.takesOperand with
  | true => simp [printedParts, htakes]
  | false => simp [printedParts, htakes]

/-- The word of a printed instruction, where no label is defined. -/
theorem wordOf_printed (i : Instruction)
    (hplain : i.opcode.takesOperand = false → i.operand = MemoryAddress.zero) :
    wordOf (fun _ => none) (printedStatement i) =
      if i.opcode.takesOperand = true ∧ 0xA00 ≤ i.operand.toNat then .error .UNKNOWN_LABEL
      else .ok i.encode := by
  have hclass : classify (toAsciiLowercase i.opcode.mnemonic.toList) = .opcode i.opcode := by
    cases i.opcode <;> decide
  have hlooks := looksLike_hexPadded i.operand
  simp only [wordOf, printedStatement, hclass, instructionWord]
  cases htakes : i.opcode.takesOperand with
  | true =>
    by_cases hlarge : 0xA00 ≤ i.operand.toNat
    · rw [decide_eq_false (by omega)] at hlooks
      simp [operandAddress, hlooks, hlarge]
    · rw [decide_eq_true (by omega)] at hlooks
      simp [operandAddress, hlooks, hlarge, literalAddress_hexPadded]
  | false =>
    simp [← hplain htakes]

/-- Statements without labels, other than `END`, are placed one after the other. -/
theorem Sketch.run_plain {statements : List Statement}
    (hplain : ∀ s ∈ statements, s.label = none ∧ isEnd s = false) {sk : Sketch}
    (hrunning : sk.stopped = false)
    (hroom : sk.originAddress.toNat + sk.items.length + statements.length ≤ MEMORY_WORD_COUNT)
    (line : Nat) :
    (run line (statements.map .statement) sk).items.map Placed.statement =
        sk.items.map Placed.statement ++ statements ∧
      (run line (statements.map .statement) sk).codes = sk.codes ∧
      (run line (statements.map .statement) sk).labels = sk.labels ∧
      (run line (statements.map .statement) sk).stopped = false := by
  induction statements generalizing sk line with
  | nil => simp [run, hrunning]
  | cons s statements ih =>
    obtain ⟨hlabel, hend⟩ := hplain s List.mem_cons_self
    rw [List.length_cons] at hroom
    have hlt : sk.originAddress.toNat + sk.items.length < MEMORY_WORD_COUNT := by omega
    have haddress : MemoryAddress.tryNew (sk.originAddress.toNat + sk.items.length) =
        some (BitVec.ofNat 12 (sk.originAddress.toNat + sk.items.length)) := if_pos hlt
    have hstep : sk.step line (.statement s) =
        sk.place ⟨line, BitVec.ofNat 12 (sk.originAddress.toNat + sk.items.length), s⟩ := by
      rw [step_running hrunning]
      simp only [stepForm, stepStatement, haddress, hlabel, Option.bind_none, accept]
    generalize BitVec.ofNat 12 (sk.originAddress.toNat + sk.items.length) = address at hstep
    have hitems : (sk.place ⟨line, address, s⟩).items = sk.items ++ [⟨line, address, s⟩] := by
      rw [place]
      simp [hend]
    have hstopped : (sk.place ⟨line, address, s⟩).stopped = false := hend
    have hroom' : (sk.place ⟨line, address, s⟩).originAddress.toNat +
        (sk.place ⟨line, address, s⟩).items.length + statements.length ≤ MEMORY_WORD_COUNT := by
      have horigin : (sk.place ⟨line, address, s⟩).originAddress = sk.originAddress := rfl
      rw [horigin, hitems, List.length_append, List.length_singleton]
      omega
    obtain ⟨hrest, hcodes, hlabels, hstop⟩ :=
      ih (fun t ht => hplain t (List.mem_cons_of_mem _ ht)) hstopped hroom' (line + 1)
    rw [List.map_cons, run, hstep]
    refine ⟨?_, hcodes, hlabels, hstop⟩
    rw [hrest, hitems]
    simp

theorem display_line (i : Instruction) : '\n' ∉ i.display.toList := by
  have hword : ∀ word, IsWord word → '\n' ∉ word := by
    intro word hword hmem
    have hspace := hword.no_whitespace _ hmem
    revert hspace
    decide
  rw [← printedParts_text]
  simp only [Parts.text, printedParts, Parts.labelText, Body.text, List.nil_append,
    List.append_nil, List.mem_append, not_or]
  refine ⟨hword _ (mnemonic_word _), ?_⟩
  cases htakes : i.opcode.takesOperand with
  | true =>
    simp only [Body.operandText, if_true, List.mem_append, not_or]
    exact ⟨by decide, hword _ (hexPadded_word _)⟩
  | false => simp [Body.operandText]

theorem shapes_printed (instructions : List Instruction) : shapes (printed instructions) =
    (instructions.map printedStatement).map .statement ++ [.blank] := by
  have hlines : ∀ line ∈ instructions.map fun i => i.display.toList, '\n' ∉ line := by
    intro line hline
    obtain ⟨i, -, rfl⟩ := List.mem_map.mp hline
    exact display_line i
  have hsplit := splitOn_joined hlines List.not_mem_nil
  have hblank : shapeOf [] = .blank := by decide +kernel
  rw [List.append_nil] at hsplit
  rw [shapes, printed, hsplit, List.map_append, List.map_map, List.map_map, List.map_singleton,
    hblank]
  congr 1
  exact List.map_congr_left fun i _ => shapeOf_display i

/-- The first pass over printed instructions places them all and finds nothing wrong. -/
theorem sketchOf_printed {instructions : List Instruction}
    (hroom : instructions.length ≤ MEMORY_WORD_COUNT) :
    (sketchOf (printed instructions)).items.map Placed.statement =
        instructions.map printedStatement ∧
      (sketchOf (printed instructions)).codes = [] ∧
      (sketchOf (printed instructions)).addressOf = fun _ => none := by
  have hplain : ∀ s ∈ instructions.map printedStatement, s.label = none ∧ isEnd s = false := by
    intro s hs
    obtain ⟨i, -, rfl⟩ := List.mem_map.mp hs
    refine ⟨rfl, ?_⟩
    change (toAsciiLowercase i.opcode.mnemonic.toList == "end".toList) = false
    cases i.opcode <;> decide
  have hfits : ({} : Sketch).originAddress.toNat + ({} : Sketch).items.length +
      (instructions.map printedStatement).length ≤ MEMORY_WORD_COUNT := by
    have hzero : ({} : Sketch).originAddress.toNat = 0 := rfl
    rw [hzero, List.length_nil, List.length_map, Nat.zero_add]
    exact hroom
  obtain ⟨hitems, hcodes, hlabels, hrunning⟩ := Sketch.run_plain hplain rfl hfits 0
  have hsketch : sketchOf (printed instructions) =
      Sketch.run 0 ((instructions.map printedStatement).map .statement) {} := by
    have hshapes : sketchOf (printed instructions) =
        Sketch.run 0 (shapes (printed instructions)) {} := rfl
    rw [hshapes, shapes_printed, Sketch.run_append, Sketch.run, Sketch.step_running hrunning]
    rfl
  rw [hsketch]
  refine ⟨hitems, hcodes, ?_⟩
  funext name
  rw [Sketch.addressOf, hlabels]
  rfl

/-- The assembler makes of printed instructions what they were printed from. -/
def ReadsBack (instructions : List Instruction) : Prop :=
  (assemble (printed instructions)).succeeded = true ∧
    (assemble (printed instructions)).words = instructions.map Instruction.encode

/-- Printed instructions assemble back exactly if no address is printed with a letter first. -/
theorem printed_reads_back (instructions : List Instruction)
    (hroom : instructions.length ≤ MEMORY_WORD_COUNT)
    (hplain : ∀ i ∈ instructions,
      i.opcode.takesOperand = false → i.operand = MemoryAddress.zero) :
    ReadsBack instructions ↔
      ∀ i ∈ instructions, i.opcode.takesOperand = true → i.operand.toNat < 0xA00 := by
  obtain ⟨hitems, hcodes, hlabels⟩ := sketchOf_printed hroom
  have houtlines := assemble_outlines (printed instructions)
  have hfailures : (sketchOf (printed instructions)).failures = instructions.flatMap fun i =>
      failure (wordOf (fun _ => none) (printedStatement i)) := by
    rw [Sketch.failures, hlabels]
    have hmap := congrArg (List.flatMap fun s => failure (wordOf (fun _ => none) s)) hitems
    rw [List.flatMap_map, List.flatMap_map] at hmap
    exact hmap
  have hwords : (assemble (printed instructions)).words = instructions.map fun i =>
      (wordOf (fun _ => none) (printedStatement i)).toOption.getD 0 := by
    rw [houtlines.words, Sketch.words, hlabels]
    have hmap := congrArg (List.map fun s => (wordOf (fun _ => none) s).toOption.getD 0) hitems
    rw [List.map_map, List.map_map] at hmap
    exact hmap
  rw [ReadsBack, houtlines.succeeded, hcodes, hfailures, List.flatMap_eq_nil_iff, hwords]
  constructor
  · rintro ⟨⟨-, hnone⟩, -⟩ i hi htakes
    have hi' := hnone i hi
    rw [wordOf_printed i (hplain i hi)] at hi'
    by_contra hlarge
    rw [if_pos ⟨htakes, Nat.le_of_not_lt hlarge⟩] at hi'
    cases hi'
  · intro hsmall
    have hok : ∀ i ∈ instructions,
        wordOf (fun _ => none) (printedStatement i) = .ok i.encode := by
      intro i hi
      rw [wordOf_printed i (hplain i hi), if_neg]
      rintro ⟨htakes, hlarge⟩
      exact absurd (hsmall i hi htakes) (Nat.not_lt.mpr hlarge)
    refine ⟨⟨rfl, fun i hi => ?_⟩, List.map_congr_left fun i hi => ?_⟩
    · rw [hok i hi]
      rfl
    · rw [hok i hi]
      rfl

theorem printed_reads_back_load : ReadsBack [⟨.load, 0x9FF⟩, ⟨.halt, MemoryAddress.zero⟩] :=
  (printed_reads_back _ (by decide) (by decide)).mpr (by decide)

/-- `Load A00` is read as loading from a label. -/
theorem printed_reads_label : ¬ ∀ instructions : List Instruction,
    instructions.length ≤ MEMORY_WORD_COUNT →
    (∀ i ∈ instructions, i.opcode.takesOperand = false → i.operand = MemoryAddress.zero) →
    ReadsBack instructions := by
  intro hall
  have hback := (hall [⟨.load, 0xA00⟩] (by decide) (by decide)).1
  revert hback
  decide +kernel

end MarieRs.Asm
