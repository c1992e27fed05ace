import MarieRs.Vm.Cycle

namespace MarieRs.Vm.MarieVMCore

variable {D : Type}

/-- `MAR <- IR` extracts the operand, because the write is masked. -/
theorem fetched_operand {b : MarieVMCore D} {i : Instruction} (hi : b.fetched = some i) :
    MemoryAddress.newMasked (b.memory b.registers.pc) = i.operand :=
  (Instruction.decode_eq_some.mp hi).2.symm

theorem low12Bits_fetched {b : MarieVMCore D} {i : Instruction} (hi : b.fetched = some i) :
    (b.memory b.registers.pc).low12Bits = i.operand.value := by
  rw [Word.low12Bits_eq, fetched_operand hi]

section Device
variable [MarieVmIODevice D]
open MarieVmIODevice

/-- The register transfers of an instruction add up to its documented effect;
those of `Halt` stop at their last. -/
theorem perform_planned {b : MarieVMCore D} {i : Instruction} (hi : b.fetched = some i)
    (ha : Isa.Answers i.opcode b.ioDevice b.registers.ac) :
    (perform (planned i) b).1 = (if i.opcode = .halt then some .halted else none) ∧
    (perform (planned i) b).2.arch = Isa.exec i b.arch := by
  rw [planned, perform_append _ _ (perform_fetch hi)]
  obtain ⟨op, x⟩ := i
  have hx : MemoryAddress.newMasked (b.memory b.registers.pc) = x := fetched_operand hi
  have hl : (b.memory b.registers.pc).low12Bits = x.value := low12Bits_fetched hi
  have htwo : ∀ a : MemoryAddress, a + 1#12 + 1#12 = a + 2#12 := fun a => by
    rw [BitVec.add_assoc]
    rfl
  cases op
  case input =>
    obtain ⟨value, d, hpoll⟩ := ha.delivers rfl
    simp [execute, INPUT, perform, executeMicroOp, executeMicroOp.done, writeRegister,
      Registers.write, Registers.read, arch, Isa.exec, hpoll]
  case output =>
    obtain ⟨d, hout⟩ := ha.accepts rfl
    simp [execute, OUTPUT, perform, executeMicroOp, executeMicroOp.done, writeRegister,
      Registers.write, Registers.read, arch, Isa.exec, hout]
  case skipCond =>
    have hs : (SkipCondition.fromOperand x).holds b.registers.ac = Isa.skips x b.registers.ac :=
      Isa.holds_fromOperand x _
    cases hc : Isa.skips x b.registers.ac <;> rw [hc] at hs <;>
      simp [execute, SKIPCOND, perform, executeMicroOp, executeMicroOp.done, writeRegister,
        Instruction.skipCondition, hs, hc, arch, Isa.exec, Registers.write, htwo]
  all_goals
    simp [execute, JNS, LOAD, STORE, ADD, SUBT, HALT, JUMP, LOAD_IMMI, ADD_I, JUMP_I, LOAD_I,
      STORE_I, perform, executeMicroOp, executeMicroOp.done, writeRegister, writeMemory_eq,
      Registers.write, Registers.read, arch, Isa.exec, Isa.State.store, Isa.addressOf_eq, hx, hl]

/-- What is left of an instruction underway brings about the whole of its effect. -/
theorem Underway.step_exec {i : Instruction} {b vm : MarieVMCore D} (h : Underway i b vm)
    (ha : Isa.Answers i.opcode b.ioDevice b.registers.ac) :
    ∃ w, vm.step = (if i.opcode = .halt then .halted else .continue_, w) ∧
      w.arch = Isa.exec i b.arch ∧ (i.opcode ≠ .halt → w.microPc = 0) := by
  obtain ⟨w, hw, harch, hpc⟩ := h.step_performs
  have hb : b.beginInstruction.arch = b.arch := by
    rw [begin_frame]
    rfl
  have hans : Isa.Answers i.opcode b.beginInstruction.ioDevice
      b.beginInstruction.registers.ac := by
    rw [begin_frame]
    exact ha
  obtain ⟨h1, h2⟩ := perform_planned (fetched_begin h.fetched) hans
  rw [h1] at hw hpc
  refine ⟨w, ?_, ?_, ?_⟩
  · rw [hw]
    split <;> rfl
  · rw [harch, h2, hb]
  · intro hne
    exact hpc (if_neg hne)

/-- Microcode refines the instruction set: one `step` from an instruction
boundary has exactly the documented effect, whatever the internal registers and
the control unit still hold from before. -/
theorem step_documented {vm : MarieVMCore D} {i : Instruction} (hz : vm.microPc = 0)
    (hi : Instruction.decode (vm.memory vm.registers.pc) = some i)
    (ha : Isa.Answers i.opcode vm.ioDevice vm.registers.ac) :
    ∃ w, vm.step = (if i.opcode = .halt then .halted else .continue_, w) ∧
      w.arch = Isa.exec i vm.arch ∧ (i.opcode ≠ .halt → w.microPc = 0) :=
  (Underway.start hz hi).step_exec ha

/-- A machine that knows nothing but `Input`. -/
def inputMachine : MarieVMCore VecIo :=
  { MarieVMCore.new (VecIo.new [7]) with memory := fun _ => 0x5000 }

theorem step_documented_input :
    ∃ w, inputMachine.step = (.continue_, w) ∧
      w.arch = Isa.exec ⟨.input, 0⟩ inputMachine.arch ∧ (Opcode.input ≠ .halt → w.microPc = 0) := by
  have hi : Instruction.decode (inputMachine.memory inputMachine.registers.pc) =
      some ⟨.input, 0⟩ := by decide
  have hanswers : Isa.Answers .input inputMachine.ioDevice inputMachine.registers.ac :=
    ⟨fun _ => ⟨7, ⟨[], []⟩, rfl⟩, nofun⟩
  exact step_documented rfl hi hanswers

end Device

end MarieRs.Vm.MarieVMCore
