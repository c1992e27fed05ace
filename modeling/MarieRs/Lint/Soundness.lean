import MarieRs.Lint.Edges
import MarieRs.Vm.Loading
import MarieRs.Vm.Trajectory

namespace MarieRs.Lint

open Asm (Assembly Item assemble assemble_outlines)
open Vm (MarieVMCore MarieVmIODevice VecIo Isa.nextPc Isa.skips Isa.exec_pc Isa.exec_memory
  Isa.stored)
open Vm.MarieVMCore (Run RunWhile loadProgram_starts)

variable {source : Str} {D : Type}

/-- The item that begins at `b` still is the word it was assembled to. -/
def Intact (a : Assembly) (b : MarieVMCore D) (i : Nat) : Prop :=
  At a b.registers.pc i ∧ (Cfg.new a).kind i = some .code ∧
    a.words[i]? = some (b.memory b.registers.pc)

/-- What is fetched from an intact item, and where it can go. -/
theorem Intact.fetched (hok : (assemble source).succeeded = true) {b : MarieVMCore D} {i : Nat}
    (h : Intact (assemble source) b i) :
    ∃ item instruction, (assemble source).program.items[i]? = some item ∧
      effectiveOpcode item = some instruction.opcode ∧ b.fetched = some instruction ∧
      instruction.operand = MemoryAddress.newMasked (b.memory b.registers.pc) ∧
      (instruction.opcode ≠ .halt → ∃ edge ∈ (Cfg.new (assemble source)).edges (assemble source) i,
        edge.Describes (assemble source) i
          (instruction.opcode = .skipCond ∧
            Isa.skips instruction.operand b.registers.ac = true)
          (Isa.nextPc instruction b.arch)) := by
  obtain ⟨hat, hkind, hword⟩ := h
  obtain ⟨item, hitem⟩ := hat.item
  rw [Cfg.kind_new, hitem, Option.map_some, Option.some.injEq] at hkind
  obtain ⟨opcode, word, hopcode, hget, hdecode⟩ := code_word hok hitem hkind
  rw [hword, Option.some.injEq] at hget
  subst hget
  refine ⟨item, ⟨opcode, MemoryAddress.newMasked (b.memory b.registers.pc)⟩, hitem, hopcode,
    hdecode, rfl, ?_⟩
  intro hhalt
  have hpc : At (assemble source) b.arch.pc i := hat
  have hcover := edges_cover hitem hkind hopcode hword hhalt hpc
  exact hcover

/-- An exact graph, and none of the findings about control flow or overwritten code. -/
structure Clean (source : Str) : Prop where
  succeeded : (assemble source).succeeded = true
  nonempty : (assemble source).words ≠ []
  exact_ : (Cfg.new (assemble source)).exact = true
  fallsIntoData : FallsIntoData.run ⟨assemble source, source⟩ = []
  fallsOffEnd : FallsOffEnd.run ⟨assemble source, source⟩ = []
  jumpsOutside : JumpsOutsideProgram.run ⟨assemble source, source⟩ = []
  jnsOverwrites : JnsOverwritesCode.run ⟨assemble source, source⟩ = []
  selfModifying : SelfModifyingCode.run ⟨assemble source, source⟩ = []

theorem items_of_words (h : (assemble source).words ≠ []) :
    (assemble source).program.items ≠ [] := by
  intro hnil
  have houtlines := assemble_outlines source
  rw [houtlines.words, Asm.Sketch.words, ← houtlines.items, hnil] at h
  exact h rfl

theorem exact_direct (h : (Cfg.new (assemble source)).exact = true) {i : Nat} {item : Item}
    (hitem : (assemble source).program.items[i]? = some item) {opcode : Opcode}
    (hopcode : effectiveOpcode item = some opcode) : opcode ≠ .jumpI ∧ opcode ≠ .storeI := by
  have hdirect : isIndirect item = false := by
    simp only [Cfg.exact, Cfg.new, Cfg.markReachable, Bool.not_eq_true'] at h
    exact Bool.eq_false_iff.mpr (List.any_eq_false.mp h item (List.mem_of_getElem? hitem))
  rw [isIndirect] at hdirect
  rw [effectiveOpcode] at hopcode
  constructor
  all_goals
    rintro rfl
    split at hopcode
    · rename_i hkind
      cases hopcode
      rw [hkind] at hdirect
      cases hdirect
    · cases hopcode
    · cases hopcode

/-- The invariant at the start of every instruction: it is reachable code, and no
reachable word has changed. -/
structure InCode (a : Assembly) (b : MarieVMCore D) : Prop where
  place : ∃ i, At a b.registers.pc i ∧ (Cfg.new a).isReachable i = true
  memory : ∀ address j word, At a address j → (Cfg.new a).isReachable j = true →
    a.words[j]? = some word → b.memory address = word

theorem Clean.intact (h : Clean source) {b : MarieVMCore D} (hb : InCode (assemble source) b) :
    ∃ i, (Cfg.new (assemble source)).isReachable i = true ∧ Intact (assemble source) b i := by
  obtain ⟨⟨i, hat, hreachable⟩, hmemory⟩ := hb
  obtain ⟨item, hitem⟩ := hat.item
  have hkind := fallsIntoData_silent h.succeeded (items_of_words h.nonempty) h.fallsIntoData
    hreachable
  obtain ⟨word, -, hword⟩ := (assemble_outlines source).word h.succeeded hitem
  have hheld := hmemory b.registers.pc i word hat hreachable hword
  exact ⟨i, hreachable, hat, hkind, hheld ▸ hword⟩

/-- One instruction of a clean program. -/
theorem Clean.exec (h : Clean source) {b b' : MarieVMCore D} (hb : InCode (assemble source) b)
    {instruction : Instruction} (hfetched : b.fetched = some instruction)
    (hhalt : instruction.opcode ≠ .halt) {value : Word}
    (harch : (b'.always value).arch = Vm.Isa.exec instruction (b.always value).arch) :
    InCode (assemble source) b' := by
  have hne := items_of_words h.nonempty
  obtain ⟨i, hreachable, hintact⟩ := h.intact hb
  obtain ⟨item, _, hitem, hopcode, hsame, hoperand, hcover⟩ := hintact.fetched h.succeeded
  rw [hfetched, Option.some.injEq] at hsame
  subst hsame
  obtain ⟨hjumpI, hstoreI⟩ := exact_direct h.exact_ hitem hopcode
  have hpc : b'.registers.pc = Isa.nextPc instruction b.arch :=
    (congrArg Vm.Isa.State.pc harch).trans (Isa.exec_pc _ _)
  constructor
  · obtain ⟨edge, hedge, hdescribes⟩ := hcover hhalt
    rw [← hpc] at hdescribes
    cases edge with
    | word j =>
      exact ⟨j, hdescribes, Cfg.isReachable_next hreachable hintact.2.1 hedge⟩
    | outside address =>
      exact absurd hedge (jumpsOutside_silent h.succeeded hne h.jumpsOutside hreachable address)
    | offEnd =>
      exact absurd hedge (fallsOffEnd_silent h.succeeded hne h.fallsOffEnd hreachable hintact.2.1)
    | unknown => exact absurd (unknown_edge hitem hopcode hintact.2.2 hedge) hjumpI
  · intro address j word hat hj hword
    have hkept := hb.memory address j word hat hj hword
    have hstored : Isa.stored instruction (b.always value).arch ≠ some address := by
      obtain ⟨opcode, operand⟩ := instruction
      subst hoperand
      have hcode := fallsIntoData_silent h.succeeded hne h.fallsIntoData hj
      intro hsome
      cases opcode with
      | jnS =>
        cases hsome
        exact jnsOverwritesCode_silent h.succeeded hne h.jnsOverwrites hitem hopcode hintact.2.2
          (indexOf_at.mpr hat) hcode
      | store =>
        cases hsome
        have hnot := selfModifyingCode_silent h.succeeded hne h.selfModifying hitem hopcode
          hintact.2.2 (indexOf_at.mpr hat) hcode
        rw [hj] at hnot
        cases hnot
      | storeI => exact hstoreI rfl
      | load | add | subt | input | output | halt | skipCond | jump | loadImmi | addI | jumpI
        | loadI => cases hsome
    have hmemory := Isa.exec_memory hstored
    rw [← harch] at hmemory
    exact hmemory.trans hkept

section Device
variable [MarieVmIODevice D]

/-- A run of a clean program. -/
theorem Clean.run (h : Clean source) {loaded start b vm : MarieVMCore D}
    (hload : loaded.loadProgram (assemble source).origin (assemble source).words = .ok start)
    (hrun : Run start b vm) : InCode (assemble source) b := by
  obtain ⟨hz, hpc, hmemory⟩ := loadProgram_starts hload
  have hne := items_of_words h.nonempty
  induction hrun with
  | start =>
    refine ⟨⟨0, ⟨congrArg BitVec.toNat hpc, List.length_pos_iff.mpr hne⟩,
      Cfg.isReachable_start hne⟩, fun address j word hat _ hword => ?_⟩
    exact hmemory address j word hat.1 hword
  | device d hrun ih => exact ih
  | inside hrun hpc ih => exact ih
  | turn hrun hturn _ ih =>
    obtain ⟨instruction, hfetched⟩ := hrun.decoded hz hturn
    obtain ⟨hhalt, value, harch⟩ := hrun.turned hz hturn hfetched
    exact h.exec ih hfetched hhalt harch

/-- A clean program stays in its code: every instruction is a reachable one, as it was
assembled, and is decoded. -/
theorem clean_stays_in_code (h : Clean source) {loaded start b vm : MarieVMCore D}
    (hload : loaded.loadProgram (assemble source).origin (assemble source).words = .ok start)
    (hrun : Run start b vm) :
    (∃ i word, b.registers.pc.toNat = (assemble source).origin.toNat + i ∧
      (Cfg.new (assemble source)).kind i = some .code ∧
      (Cfg.new (assemble source)).isReachable i = true ∧
      (assemble source).words[i]? = some word ∧ b.memory b.registers.pc = word) ∧
    (vm.currentMicroOp = some .decode → vm.instructionAddress = b.registers.pc ∧
      vm.registers.ir = b.memory b.registers.pc) ∧
    ∀ address word, vm.microStep.1 ≠ .faulted (.invalidOpcode address word) := by
  have hz := (loadProgram_starts hload).1
  obtain ⟨i, hreachable, hintact⟩ := h.intact (h.run hload hrun)
  obtain ⟨item, instruction, -, -, hfetched, -⟩ := hintact.fetched h.succeeded
  exact ⟨⟨i, _, hintact.1.1, hintact.2.1, hreachable, hintact.2.2, rfl⟩,
    fun hdecode => hrun.decodes hz hdecode hfetched,
    hrun.not_invalid hz hfetched⟩

end Device

/-- A loop that stores to its own data. -/
def storeLoop : Str := "Loop, Load X\nStore X\nJump Loop\nX, DEC 5".toList

theorem storeLoop_graph : Cfg.new (assemble storeLoop) =
    ⟨[.code, .code, .code, .data], [true, true, true, false], true, 0⟩ := by
  rw [Cfg.new_of_within (assemble storeLoop) 8 (by decide +kernel :
    _ = some [true, true, true, false])]
  decide +kernel

theorem storeLoop_clean : Clean storeLoop := by
  have hok : (assemble storeLoop).succeeded = true := by decide +kernel
  have hne : (assemble storeLoop).program.items ≠ [] := by decide +kernel
  have hgraph : graph ⟨assemble storeLoop, storeLoop⟩ =
      some ⟨[.code, .code, .code, .data], [true, true, true, false], true, 0⟩ := by
    rw [graph_new hok hne, storeLoop_graph]
  refine ⟨hok, by decide +kernel, by rw [storeLoop_graph]; rfl, ?_, ?_, ?_, ?_, ?_⟩
  · simp only [FallsIntoData, hgraph]
    decide +kernel
  · simp only [FallsOffEnd, hgraph]
    decide +kernel
  · simp only [JumpsOutsideProgram, hgraph]
    decide +kernel
  · simp only [JnsOverwritesCode, hgraph]
    decide +kernel
  · simp only [SelfModifyingCode, hgraph]
    decide +kernel

/-- The machine that holds `storeLoop`. -/
def storeLoopLoaded : MarieVMCore VecIo :=
  MarieVMCore.rewindTo { MarieVMCore.new ⟨[], []⟩ with
    memory := fun a => if 0 ≤ a.toNat then
      ([0x1003, 0x2003, 0x9000, 5][a.toNat - 0]?).getD 0 else 0 } 0

theorem storeLoopLoaded_eq :
    (MarieVMCore.new (⟨[], []⟩ : VecIo)).loadProgram (assemble storeLoop).origin
      (assemble storeLoop).words = .ok storeLoopLoaded := by
  have hwords : (assemble storeLoop).words = [0x1003, 0x2003, 0x9000, 5] := by decide +kernel
  have horigin : (assemble storeLoop).origin = 0 := by decide +kernel
  rw [hwords, horigin]
  rfl

theorem storeLoopLoaded_step :
    storeLoopLoaded.step.1 = .continue_ ∧ storeLoopLoaded.step.2.registers.pc = 1 := by
  rw [Vm.MarieVMCore.step_eq_stepWithin (by decide : 0 < 10) (by decide +kernel)]
  decide +kernel

theorem clean_stays_in_code_storeLoop :
    let vm := storeLoopLoaded.step.2
    vm.registers.pc = 1 ∧
      (∃ i word, vm.registers.pc.toNat = (assemble storeLoop).origin.toNat + i ∧
        (Cfg.new (assemble storeLoop)).kind i = some .code ∧
        (Cfg.new (assemble storeLoop)).isReachable i = true ∧
        (assemble storeLoop).words[i]? = some word ∧ vm.memory vm.registers.pc = word) ∧
      (vm.currentMicroOp = some .decode → vm.instructionAddress = vm.registers.pc ∧
        vm.registers.ir = vm.memory vm.registers.pc) ∧
      ∀ address word, vm.microStep.1 ≠ .faulted (.invalidOpcode address word) := by
  obtain ⟨hstep, hpc⟩ := storeLoopLoaded_step
  have hrun : Run storeLoopLoaded storeLoopLoaded.step.2 storeLoopLoaded.step.2 :=
    RunWhile.step .start (Prod.ext hstep rfl) trivial
  exact ⟨hpc, clean_stays_in_code storeLoop_clean storeLoopLoaded_eq hrun⟩

/-- The instruction that begins at `b` goes where the graph can follow it: out of the program
or to its first word, or from a code item that still is what was assembled, and not by a skip
past the last word of memory. -/
def Drawn (a : Assembly) (b : MarieVMCore D) : Prop :=
  ∀ instruction j, b.fetched = some instruction → At a (Isa.nextPc instruction b.arch) j →
    j = 0 ∨ (∃ i, Intact a b i) ∧
      ¬ (b.registers.pc = 0xFFF ∧ instruction.opcode = .skipCond ∧
        Isa.skips instruction.operand b.registers.ac = true)

/-- One instruction that the graph can follow. -/
theorem Drawn.reachable (hok : (assemble source).succeeded = true)
    (hexact : (Cfg.new (assemble source)).exact = true) {b : MarieVMCore D}
    (hdrawn : Drawn (assemble source) b)
    (hb : ∀ i, At (assemble source) b.registers.pc i →
      (Cfg.new (assemble source)).isReachable i = true)
    {instruction : Instruction} (hfetched : b.fetched = some instruction)
    (hhalt : instruction.opcode ≠ .halt) {j : Nat}
    (hj : At (assemble source) (Isa.nextPc instruction b.arch) j) :
    (Cfg.new (assemble source)).isReachable j = true := by
  have hne : (assemble source).program.items ≠ [] :=
    List.length_pos_iff.mp (Nat.lt_of_le_of_lt (Nat.zero_le j) hj.2)
  rcases hdrawn instruction j hfetched hj with rfl | ⟨⟨i, hintact⟩, hwrap⟩
  · exact Cfg.isReachable_start hne
  · obtain ⟨item, _, hitem, hopcode, hsame, -, hcover⟩ := hintact.fetched hok
    rw [hfetched, Option.some.injEq] at hsame
    subst hsame
    obtain ⟨edge, hedge, hdescribes⟩ := hcover hhalt
    cases edge with
    | word k =>
      have hk : At (assemble source) (Isa.nextPc instruction b.arch) k := hdescribes
      have hjk : j = k := by have := hk.1.symm.trans hj.1; omega
      subst hjk
      exact Cfg.isReachable_next (hb i hintact.1) hintact.2.1 hedge
    | outside address => exact absurd hj (hdescribes.2 j)
    | unknown =>
      exact absurd (unknown_edge hitem hopcode hintact.2.2 hedge)
        (exact_direct hexact hitem hopcode).1
    | offEnd =>
      obtain ⟨offset, hoffset, hend, hpc⟩ := hdescribes
      obtain ⟨hplace, hlt⟩ := hintact.1
      have hbound := b.registers.pc.isLt
      rw [show MEMORY_WORD_COUNT = 4096 from rfl] at hpc
      have heither : offset = 1 ∨ offset = 2 := hoffset.imp_right And.left
      have hat := hj.1
      have hjlt := hj.2
      -- past the last word of memory there are only the first two words of the program
      by_cases hzero : j = 0
      · rw [hzero]
        exact Cfg.isReachable_start hne
      · have hpast : offset = 2 ∧ b.registers.pc.toNat = 4095 := by omega
        rcases hoffset with hone | ⟨-, hskip, htaken⟩
        · omega
        · exact absurd ⟨BitVec.eq_of_toNat_eq hpast.2, hskip, htaken⟩ hwrap

theorem unreachableInstruction_line (hok : (assemble source).succeeded = true) {i : Nat}
    {item : Item} (hitem : (assemble source).program.items[i]? = some item)
    (hreachable : (Cfg.new (assemble source)).isReachable i = true) {d : Asm.Diagnostic}
    (hd : d ∈ UnreachableInstruction.run ⟨assemble source, source⟩) : d.line ≠ item.line := by
  have hne : (assemble source).program.items ≠ [] :=
    List.ne_nil_of_mem (List.mem_of_getElem? hitem)
  have hgraph : graph ⟨assemble source, source⟩ = some (.new (assemble source)) :=
    graph_new hok hne
  simp only [UnreachableInstruction, hgraph] at hd
  split at hd
  · cases hd
  · obtain ⟨j, -, hj⟩ := List.mem_flatMap.mp hd
    split at hj
    · rename_i other hother
      simp only at hj
      split at hj
      · cases hj
      · rename_i hunreachable
        rw [List.mem_singleton.mp hj]
        intro hline
        have hlines : ((assemble source).program.items.map Item.line).Nodup :=
          (Asm.item_lines (assemble_outlines source) (Asm.sketchOf_laid source)).imp Nat.ne_of_lt
        have hij : i = j := by
          refine (List.getElem?_inj ?_ hlines).mp ?_
          · simpa using (List.getElem?_eq_some_iff.mp hitem).1
          · have hwarned : other.line = item.line := hline
            rw [List.getElem?_map, List.getElem?_map, hitem, hother, Option.map_some,
              Option.map_some, hwarned]
        exact hunreachable (.inl (hij ▸ hreachable))
    · cases hj

section Device
variable [MarieVmIODevice D]

/-- As long as every instruction goes where the graph can follow it, what is executed is
reachable, and never reported as unreachable. -/
theorem executed_reachable (hok : (assemble source).succeeded = true)
    (hexact : (Cfg.new (assemble source)).exact = true) {loaded start b vm : MarieVMCore D}
    (hload : loaded.loadProgram (assemble source).origin (assemble source).words = .ok start)
    (hrun : RunWhile (fun b _ => Drawn (assemble source) b) start b vm) {i : Nat} {item : Item}
    (hitem : (assemble source).program.items[i]? = some item)
    (hpc : b.registers.pc.toNat = (assemble source).origin.toNat + i) :
    (Cfg.new (assemble source)).isReachable i = true ∧
      ∀ d ∈ UnreachableInstruction.run ⟨assemble source, source⟩, d.line ≠ item.line := by
  obtain ⟨hz, hstart, -⟩ := loadProgram_starts hload
  have hreachable : ∀ i, At (assemble source) b.registers.pc i →
      (Cfg.new (assemble source)).isReachable i = true := by
    clear hpc hitem
    induction hrun with
    | start =>
      intro i hi
      have hzero : i = 0 := by
        have := hi.1
        rw [hstart] at this
        omega
      rw [hzero]
      exact Cfg.isReachable_start (List.length_pos_iff.mp (Nat.lt_of_le_of_lt (Nat.zero_le i) hi.2))
    | device d hrun ih => exact ih
    | inside hrun hpc ih => exact ih
    | @turn b vm hrun hturn hdrawn ih =>
      obtain ⟨instruction, hfetched⟩ := hrun.decoded hz hturn
      obtain ⟨hhalt, value, harch⟩ := hrun.turned hz hturn hfetched
      have hnext : vm.microStep.2.registers.pc = Isa.nextPc instruction b.arch :=
        (congrArg Vm.Isa.State.pc harch).trans (Isa.exec_pc _ _)
      intro j hj
      rw [hnext] at hj
      exact hdrawn.reachable hok hexact ih hfetched hhalt hj
  have hi := hreachable i ⟨hpc, (List.getElem?_eq_some_iff.mp hitem).1⟩
  exact ⟨hi, fun d hd => unreachableInstruction_line hok hitem hi hd⟩

end Device

theorem executed_reachable_storeLoop :
    storeLoopLoaded.step.2.registers.pc = 1 ∧
      (Cfg.new (assemble storeLoop)).isReachable 1 = true ∧
      ∀ item, (assemble storeLoop).program.items[1]? = some item →
        ∀ d ∈ UnreachableInstruction.run ⟨assemble storeLoop, storeLoop⟩, d.line ≠ item.line := by
  obtain ⟨hstep, hpc⟩ := storeLoopLoaded_step
  have hdrawn : Drawn (assemble storeLoop) storeLoopLoaded := by
    intro instruction j hfetched hj
    refine .inr ⟨⟨0, ⟨by decide +kernel, by decide +kernel⟩, ?_, by decide +kernel⟩, ?_⟩
    · rw [storeLoop_graph]
      rfl
    · exact fun h => absurd h.1 (by decide +kernel)
  have hrun : RunWhile (fun b _ => Drawn (assemble storeLoop) b) storeLoopLoaded
      storeLoopLoaded.step.2 storeLoopLoaded.step.2 :=
    RunWhile.step .start (Prod.ext hstep rfl) hdrawn
  have hplace : storeLoopLoaded.step.2.registers.pc.toNat =
      (assemble storeLoop).origin.toNat + 1 := by
    rw [hpc]
    decide +kernel
  have hboth : ∀ item, (assemble storeLoop).program.items[1]? = some item → _ :=
    fun item hitem => executed_reachable storeLoop_clean.succeeded storeLoop_clean.exact_
      storeLoopLoaded_eq hrun hitem hplace
  have hsome : (assemble storeLoop).program.items[1]?.isSome = true := by decide +kernel
  obtain ⟨item, hitem⟩ := Option.isSome_iff_exists.mp hsome
  exact ⟨hpc, (hboth item hitem).1, fun item hitem => (hboth item hitem).2⟩

/-- A store that changes the last word into a call into the second. -/
def patched : Str := "Jump 2\nHalt\nStore 3\nHalt".toList

theorem patched_graph : Cfg.new (assemble patched) =
    ⟨[.code, .code, .code, .code], [true, false, true, true], true, 0⟩ := by
  rw [Cfg.new_of_within (assemble patched) 8 (by decide +kernel :
    _ = some [true, false, true, true])]
  decide +kernel

/-- The machine that holds `patched`. -/
def patchedLoaded : MarieVMCore VecIo :=
  MarieVMCore.rewindTo { MarieVMCore.new ⟨[], []⟩ with
    memory := fun a => if 0 ≤ a.toNat then
      ([0x9002, 0x7000, 0x2003, 0x7000][a.toNat - 0]?).getD 0 else 0 } 0

theorem patchedLoaded_eq :
    (MarieVMCore.new (⟨[], []⟩ : VecIo)).loadProgram (assemble patched).origin
      (assemble patched).words = .ok patchedLoaded := by
  have hwords : (assemble patched).words = [0x9002, 0x7000, 0x2003, 0x7000] := by decide +kernel
  have horigin : (assemble patched).origin = 0 := by decide +kernel
  rw [hwords, horigin]
  rfl

/-- Three instructions of `patched`. -/
theorem patched_run : Run patchedLoaded (patchedLoaded.step.2.step.2.step.2)
      (patchedLoaded.step.2.step.2.step.2) ∧
    patchedLoaded.step.2.step.2.step.2.registers.pc = 1 := by
  have hfirst : patchedLoaded.step = Vm.MarieVMCore.stepWithin 10 patchedLoaded :=
    Vm.MarieVMCore.step_eq_stepWithin (by decide) (by decide +kernel)
  have hsecond : patchedLoaded.step.2.step =
      Vm.MarieVMCore.stepWithin 10 (Vm.MarieVMCore.stepWithin 10 patchedLoaded).2 := by
    rw [hfirst]
    exact Vm.MarieVMCore.step_eq_stepWithin (by decide) (by decide +kernel)
  have hthird : patchedLoaded.step.2.step.2.step = Vm.MarieVMCore.stepWithin 10
      (Vm.MarieVMCore.stepWithin 10 (Vm.MarieVMCore.stepWithin 10 patchedLoaded).2).2 := by
    rw [hsecond]
    exact Vm.MarieVMCore.step_eq_stepWithin (by decide) (by decide +kernel)
  have hjump : patchedLoaded.step.1 = .continue_ := by
    rw [hfirst]
    decide +kernel
  have hstore : patchedLoaded.step.2.step.1 = .continue_ := by
    rw [hsecond]
    decide +kernel
  have hcall : patchedLoaded.step.2.step.2.step.1 = .continue_ := by
    rw [hthird]
    decide +kernel
  refine ⟨?_, by rw [hthird]; decide +kernel⟩
  exact (RunWhile.start.step (Prod.ext hjump rfl) trivial
    |>.step (Prod.ext hstore rfl) trivial).step (Prod.ext hcall rfl) trivial

/-- An instruction that a run executes is reported as unreachable. -/
theorem executed_unreachable :
    ¬ ∀ source : Str, (assemble source).succeeded = true →
      (Cfg.new (assemble source)).exact = true →
      ∀ (D : Type) [MarieVmIODevice D] (device : D) (start b vm : MarieVMCore D),
        (MarieVMCore.new device).loadProgram (assemble source).origin (assemble source).words =
          .ok start → Run start b vm → ∀ i item, (assemble source).program.items[i]? = some item →
          b.registers.pc.toNat = (assemble source).origin.toNat + i →
          (Cfg.new (assemble source)).isReachable i = true := by
  intro hall
  have hsome : (assemble patched).program.items[1]?.isSome = true := by decide +kernel
  obtain ⟨item, hitem⟩ := Option.isSome_iff_exists.mp hsome
  obtain ⟨hrun, hpc⟩ := patched_run
  have hreachable := hall patched (by decide +kernel) (by rw [patched_graph]; rfl) VecIo ⟨[], []⟩
    _ _ _ patchedLoaded_eq hrun 1 item hitem (by rw [hpc]; decide +kernel)
  rw [patched_graph] at hreachable
  cases hreachable

end MarieRs.Lint
