import MarieRs.Vm.Machine

namespace MarieRs.Vm.MarieVMCore

variable {D : Type}

@[simp] theorem begin_microPc (vm : MarieVMCore D) :
    vm.beginInstruction.microPc = vm.microPc := by
  unfold beginInstruction
  split <;> rfl

@[simp] theorem begin_decoded (vm : MarieVMCore D) :
    vm.beginInstruction.decoded = vm.decoded := by
  unfold beginInstruction
  split <;> rfl

@[simp] theorem begin_currentMicroOp (vm : MarieVMCore D) :
    vm.beginInstruction.currentMicroOp = vm.currentMicroOp := by
  simp [currentMicroOp]

theorem begin_frame (vm : MarieVMCore D) :
    vm.beginInstruction =
      { vm with instructionAddress := vm.beginInstruction.instructionAddress } := by
  unfold beginInstruction
  split <;> rfl

theorem advance_microPc (vm : MarieVMCore D) (h : (advanceMicroPc vm).microPc ≠ 0) :
    (advanceMicroPc vm).microPc = vm.microPc + 1 ∧ vm.microPc + 1 < vm.cycleLength := by
  simp only [advanceMicroPc] at h ⊢
  split at h
  · exact absurd rfl h
  · rename_i hn
    rw [if_neg hn]
    exact ⟨rfl, by omega⟩

theorem cycleLength_le_ten (vm : MarieVMCore D) : vm.cycleLength ≤ 10 := by
  unfold cycleLength
  split
  · exact cycleLength_le _
  · decide

theorem fetch_le_cycleLength (vm : MarieVMCore D) : FETCH_DECODE.length ≤ vm.cycleLength := by
  unfold cycleLength
  split
  · exact (fetch_lt_cycleLength _).le
  · exact le_rfl

section Device
variable [MarieVmIODevice D]

/-- What the display hook leaves of a device. -/
def displayed (device : D) (address : MemoryAddress) (previous current : Word) : D :=
  if previous = current then device
  else
    match pixelIndex address with
    | some index => MarieVmIODevice.displayWrite device index ⟨current⟩
    | none => device

theorem notifyDisplay_eq (vm : MarieVMCore D) (a : MemoryAddress) (p c : Word) :
    vm.notifyDisplay a p c = { vm with ioDevice := displayed vm.ioDevice a p c } := by
  unfold notifyDisplay displayed
  split
  · rfl
  · split <;> simp_all

/-- The store of a word, with what the device is told of it. -/
theorem writeMemory_eq (vm : MarieVMCore D) :
    vm.writeMemory = (.memory vm.registers.mar (vm.memory vm.registers.mar),
      { vm with
        memory := Function.update vm.memory vm.registers.mar vm.registers.mbr
        ioDevice := displayed vm.ioDevice vm.registers.mar
          (vm.memory vm.registers.mar) vm.registers.mbr }) := by
  simp [writeMemory, notifyDisplay_eq]

/-- A completed operation touches neither the breakpoints, nor the journal, nor
the micro-program counter, nor the instruction address. -/
theorem execute_frame {vm vm' : MarieVMCore D} {op : MicroOp}
    {r : Except MicroOutcome Effect} (h : vm.executeMicroOp op = (r, vm')) :
    vm'.breakpoints = vm.breakpoints ∧ vm'.history = vm.history ∧
    vm'.microPc = vm.microPc ∧ vm'.instructionAddress = vm.instructionAddress := by
  cases op <;> simp only [executeMicroOp, executeMicroOp.done, writeRegister, writeMemory_eq] at h
  all_goals
    repeat' split at h
    all_goals
      cases h
      simp

/-- A stopped operation changes nothing but possibly the device it asked. -/
theorem execute_error {vm vm' : MarieVMCore D} {op : MicroOp} {stop : MicroOutcome}
    (h : vm.executeMicroOp op = (.error stop, vm')) :
    vm' = { vm with ioDevice := vm'.ioDevice } := by
  cases op <;> simp only [executeMicroOp, executeMicroOp.done] at h
  all_goals
    repeat' split at h
    all_goals first | (cases h; rfl) | simp at h

/-- Only the decode operation selects an instruction. -/
theorem execute_decoded {vm vm' : MarieVMCore D} {op : MicroOp} {e : Effect}
    (h : vm.executeMicroOp op = (.ok e, vm')) (hop : op ≠ .decode) :
    vm'.decoded = vm.decoded := by
  cases op <;> simp only [executeMicroOp, executeMicroOp.done, writeRegister, writeMemory_eq] at h
  case decode => exact absurd rfl hop
  all_goals
    repeat' split at h
    all_goals first | (cases h; rfl) | simp at h

theorem execute_decode {vm vm' : MarieVMCore D} {e : Effect}
    (h : vm.executeMicroOp .decode = (.ok e, vm')) :
    ∃ i, Instruction.decode vm.registers.ir = some i ∧ vm' = { vm with decoded := some i } := by
  simp only [executeMicroOp] at h
  split at h
  · simp at h
  · rename_i i hi
    cases h
    exact ⟨i, hi, rfl⟩

/-- An operation never stops with the outcome of a completed one. -/
theorem execute_error_ne {vm vm' : MarieVMCore D} {op op' : MicroOp}
    (h : vm.executeMicroOp op = (.error (.executed op'), vm')) : False := by
  cases op <;> simp only [executeMicroOp, executeMicroOp.done] at h
  all_goals
    repeat' split at h
    all_goals simp at h

/-- All that an operation can say when it faults. -/
theorem execute_faulted {vm vm' : MarieVMCore D} {op : MicroOp} {fault : Fault}
    (h : vm.executeMicroOp op = (.error (.faulted fault), vm')) :
    (op = .decode ∧ Instruction.decode vm.registers.ir = none ∧
      fault = .invalidOpcode vm.instructionAddress vm.registers.ir) ∨
    (op = .readInput ∧ ∃ error, fault = .io vm.instructionAddress .input error) ∨
    op = .writeOutput ∧ ∃ error, fault = .io vm.instructionAddress .output error := by
  cases op <;> simp only [executeMicroOp, executeMicroOp.done] at h
  case decode =>
    split at h
    · rename_i hnone
      cases h
      exact .inl ⟨rfl, hnone, rfl⟩
    · cases h
  case readInput =>
    split at h
    · cases h
    · cases h
      exact .inr (.inl ⟨rfl, _, rfl⟩)
    · cases h
  case writeOutput =>
    split at h
    · cases h
      exact .inr (.inr ⟨rfl, _, rfl⟩)
    · cases h
  all_goals
    repeat' split at h
    all_goals cases h

/-- The same machine on another device. -/
def onto {E : Type} (vm : MarieVMCore D) (device : E) : MarieVMCore E where
  registers := vm.registers
  memory := vm.memory
  ioDevice := device
  breakpoints := vm.breakpoints
  history := vm.history
  microPc := vm.microPc
  decoded := vm.decoded
  instructionAddress := vm.instructionAddress
  comparison := vm.comparison

/-- They leave the device alone, and go the same way on any other. -/
theorem execute_onto {E : Type} [MarieVmIODevice E] (vm : MarieVMCore D) (device : E)
    {op : MicroOp} (hop : op.usesDevice = false) :
    (vm.executeMicroOp op).2.ioDevice = vm.ioDevice ∧
      (vm.onto device).executeMicroOp op =
        ((vm.executeMicroOp op).1, (vm.executeMicroOp op).2.onto device) := by
  cases op with
  | readInput | writeOutput | writeMemory => cases hop
  | decode =>
    simp only [executeMicroOp, onto]
    cases Instruction.decode vm.registers.ir with
    | none => exact ⟨rfl, rfl⟩
    | some i => exact ⟨rfl, rfl⟩
  | compare =>
    simp only [executeMicroOp, onto]
    cases vm.decoded.bind Instruction.skipCondition with
    | none => exact ⟨rfl, rfl⟩
    | some c => exact ⟨rfl, rfl⟩
  | skipIfComparison =>
    by_cases hskip : vm.comparison
    · have hother : (vm.onto device).comparison = true := hskip
      simp only [executeMicroOp, if_pos hskip, if_pos hother]
      exact ⟨rfl, rfl⟩
    · have hother : ¬(vm.onto device).comparison = true := hskip
      simp only [executeMicroOp, if_neg hskip, if_neg hother]
      exact ⟨trivial, trivial⟩
  | transfer | readMemory | incrementPc | add | subtract | loadImmediate | halt =>
    exact ⟨rfl, rfl⟩

/-- Everything an executed micro-step does: the current operation completes, is
journalled under the control state from before it, and the counter advances. -/
theorem microStep_executed {vm vm' : MarieVMCore D} {op : MicroOp}
    (h : vm.microStep = (.executed op, vm')) :
    vm.currentMicroOp = some op ∧ ∃ e core,
      vm.beginInstruction.executeMicroOp op = (.ok e, core) ∧
      vm' = advanceMicroPc (core.record ⟨vm.control, op, e⟩) := by
  simp only [microStep, begin_currentMicroOp] at h
  split at h
  · simp at h
  · rename_i op' hop
    split at h
    · rename_i e core he
      simp only [Prod.mk.injEq, MicroOutcome.executed.injEq] at h
      obtain ⟨rfl, rfl⟩ := h
      exact ⟨hop, e, core, he, rfl⟩
    · rename_i stop core he
      simp only [Prod.mk.injEq] at h
      obtain ⟨rfl, rfl⟩ := h
      exact (execute_error_ne he).elim

/-- Running the current operation to completion is an executed micro-step. -/
theorem microStep_of_execute {vm core : MarieVMCore D} {op : MicroOp} {e : Effect}
    (hop : vm.currentMicroOp = some op)
    (he : vm.beginInstruction.executeMicroOp op = (.ok e, core)) :
    vm.microStep = (.executed op,
      advanceMicroPc (core.record ⟨vm.control, op, e⟩)) := by
  simp only [microStep, begin_currentMicroOp, hop, he]

/-- A stopped operation stops the micro-step, and the control state is put back. -/
theorem microStep_of_error {vm core : MarieVMCore D} {op : MicroOp} {stop : MicroOutcome}
    (hop : vm.currentMicroOp = some op)
    (he : vm.beginInstruction.executeMicroOp op = (.error stop, core)) :
    vm.microStep = (stop, core.restore vm.control) := by
  simp only [microStep, begin_currentMicroOp, hop, he]

/-- A stop leaves the whole machine as it was; only the device may differ. -/
theorem microStep_stop {vm vm' : MarieVMCore D} {out : MicroOutcome}
    (h : vm.microStep = (out, vm')) (hx : ∀ op, out ≠ .executed op) :
    vm' = { vm with ioDevice := vm'.ioDevice } := by
  simp only [microStep, begin_currentMicroOp] at h
  split at h
  · rename_i hnone
    cases h
    -- the fetch phase always has a first operation
    have hz : vm.microPc ≠ 0 := by
      intro hz
      simp [currentMicroOp, hz, FETCH_DECODE] at hnone
    simp [beginInstruction, hz]
  · rename_i op hop
    split at h
    · cases h
      exact absurd rfl (hx op)
    · rename_i stop core he
      cases h
      have hc := execute_error he
      rw [hc, begin_frame]
      rfl

/-- All that a micro-step can do: complete its operation, or stop. -/
theorem microStep_cases {vm vm' : MarieVMCore D} {out : MicroOutcome}
    (h : vm.microStep = (out, vm')) :
    (∃ op effect core, out = .executed op ∧ vm.currentMicroOp = some op ∧
      vm.beginInstruction.executeMicroOp op = (.ok effect, core) ∧
      vm' = advanceMicroPc (core.record ⟨vm.control, op, effect⟩)) ∨
    ((∀ op, out ≠ .executed op) ∧ vm' = { vm with ioDevice := vm'.ioDevice }) := by
  by_cases hx : ∃ op, out = .executed op
  · obtain ⟨op, rfl⟩ := hx
    obtain ⟨hop, effect, core, he, hvm'⟩ := microStep_executed h
    exact .inl ⟨op, effect, core, rfl, hop, he, hvm'⟩
  · have hstop : ∀ op, out ≠ .executed op := fun op hop => hx ⟨op, hop⟩
    exact .inr ⟨hstop, microStep_stop h hstop⟩

/-- The counter climbs by one until it returns to zero, and never passes the
longest cycle; so an instruction is finitely many operations. -/
theorem microStep_microPc {vm vm' : MarieVMCore D} {op : MicroOp}
    (h : vm.microStep = (.executed op, vm')) (hz : vm'.microPc ≠ 0) :
    vm'.microPc = vm.microPc + 1 ∧ vm'.microPc < 10 := by
  obtain ⟨_, e, core, he, rfl⟩ := microStep_executed h
  obtain ⟨h1, h2⟩ := advance_microPc _ hz
  have hpc : (core.record ⟨vm.control, op, e⟩).microPc = vm.microPc :=
    (execute_frame he).2.2.1.trans (begin_microPc vm)
  have h10 := cycleLength_le_ten (core.record ⟨vm.control, op, e⟩)
  exact ⟨by omega, by omega⟩

/-- Runs micro-operations until the end of the current instruction. -/
def step (vm : MarieVMCore D) : Continuation × MarieVMCore D :=
  match _h : vm.microStep with
  | (.executed _, vm') => if _hz : vm'.microPc = 0 then (.continue_, vm') else step vm'
  | (.halted, vm') => (.halted, vm')
  | (.awaitingInput, vm') => (.awaitingInput, vm')
  | (.faulted fault, vm') => (.faulted fault, vm')
  | (.panicked, vm') => (.panicked, vm')
termination_by 10 - vm.microPc
decreasing_by
  have := microStep_microPc _h _hz
  omega

theorem step_boundary {vm vm' : MarieVMCore D} {op : MicroOp}
    (h : vm.microStep = (.executed op, vm')) (hz : vm'.microPc = 0) :
    vm.step = (.continue_, vm') := by
  rw [step]
  split <;> simp_all

theorem step_inner {vm vm' : MarieVMCore D} {op : MicroOp}
    (h : vm.microStep = (.executed op, vm')) (hz : vm'.microPc ≠ 0) :
    vm.step = vm'.step := by
  rw [step]
  split <;> simp_all

/-- How `step` reports the micro-operation that ended it. -/
def Continuation.ofStop : Option MicroOutcome → Continuation
  | none | some (.executed _) => .continue_
  | some .halted => .halted
  | some .awaitingInput => .awaitingInput
  | some (.faulted fault) => .faulted fault
  | some .panicked => .panicked

theorem step_stop {vm vm' : MarieVMCore D} {stop : MicroOutcome}
    (h : vm.microStep = (stop, vm')) (hx : ∀ op, stop ≠ .executed op) :
    vm.step = (Continuation.ofStop (some stop), vm') := by
  rw [step]
  split <;> rename_i heq <;> rw [h] at heq <;> cases heq
  · exact absurd rfl (hx _)
  all_goals rfl

/-- `step` by recursion on a bound, which evaluates. -/
def stepWithin : Nat → MarieVMCore D → Continuation × MarieVMCore D
  | 0, vm => (.panicked, vm)
  | fuel + 1, vm =>
    match vm.microStep with
    | (.executed _, vm) => if vm.microPc = 0 then (.continue_, vm) else stepWithin fuel vm
    | (stop, vm) => (Continuation.ofStop (some stop), vm)

theorem step_eq_stepWithin {fuel : Nat} {vm : MarieVMCore D} (hpos : 0 < fuel)
    (hf : 10 - vm.microPc ≤ fuel) : vm.step = stepWithin fuel vm := by
  induction fuel generalizing vm with
  | zero => cases hpos
  | succ fuel ih =>
    rw [stepWithin]
    split
    · rename_i op vm' hs
      split
      · rename_i hz
        exact step_boundary hs hz
      · rename_i hz
        obtain ⟨hpc, h10⟩ := microStep_microPc hs hz
        rw [step_inner hs hz]
        exact ih (by omega) (by omega)
    · rename_i stop vm' hx hs
      exact step_stop hs hx

end Device

end MarieRs.Vm.MarieVMCore
