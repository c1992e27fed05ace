import MarieRs.Vm.Api

namespace MarieRs.Vm

/-- What an operation can ask of a device and be refused. -/
inductive DeviceCall where
  | pollInput
  | output (value : Word)
  deriving DecidableEq, Repr

/-- The device that a call leaves behind. -/
def DeviceCall.perform {D : Type} [MarieVmIODevice D] : DeviceCall → D → D
  | .pollInput, device => (MarieVmIODevice.pollInput device).2
  | .output value, device => (MarieVmIODevice.output device value).2

/-- The stops that a device has no part in. -/
def MicroOutcome.Final (out : MicroOutcome) : Prop :=
  out = .halted ∨ ∃ address word, out = .faulted (.invalidOpcode address word)

/-- The stops of an operation that asked a device. -/
def MicroOutcome.Refused (out : MicroOutcome) : Prop :=
  out = .awaitingInput ∨ ∃ address opcode error, out = .faulted (.io address opcode error)

namespace MarieVMCore

variable {D : Type}

/-- The device call that comes next, if one does. -/
def asks (vm : MarieVMCore D) : Option DeviceCall :=
  match vm.currentMicroOp with
  | some .readInput => some .pollInput
  | some .writeOutput => some (.output vm.registers.output)
  | _ => none

/-- Putting the control state back undoes the start of an instruction. -/
theorem begin_restore (vm : MarieVMCore D) : vm.beginInstruction.restore vm.control = vm := by
  rw [begin_frame]
  rfl

theorem begin_device (vm : MarieVMCore D) (device : D) :
    ({ vm with ioDevice := device } : MarieVMCore D).beginInstruction =
      { vm.beginInstruction with ioDevice := device } := by
  unfold beginInstruction
  split
  · rfl
  · rfl

section Device
variable [MarieVmIODevice D]

/-- All the ways in which an operation stops. -/
theorem execute_error_cases {vm vm' : MarieVMCore D} {op : MicroOp} {stop : MicroOutcome}
    (h : vm.executeMicroOp op = (.error stop, vm')) :
    op = .halt ∧ stop = .halted ∨
    (op = .decode ∧ Instruction.decode vm.registers.ir = none ∧
      stop = .faulted (.invalidOpcode vm.instructionAddress vm.registers.ir)) ∨
    (op = .readInput ∧ stop.Refused ∧ vm'.ioDevice = DeviceCall.pollInput.perform vm.ioDevice) ∨
    (op = .writeOutput ∧ stop.Refused ∧
      vm'.ioDevice = (DeviceCall.output vm.registers.output).perform vm.ioDevice) ∨
    op = .compare ∧ stop = .panicked := by
  cases op <;> simp only [executeMicroOp, executeMicroOp.done] at h
  case decode =>
    split at h
    · rename_i hnone
      cases h
      exact .inr (.inl ⟨rfl, hnone, rfl⟩)
    · cases h
  case compare =>
    split at h
    · cases h
      exact .inr (.inr (.inr (.inr ⟨rfl, rfl⟩)))
    · cases h
  case readInput =>
    refine .inr (.inr (.inl ⟨rfl, ?_⟩))
    rw [DeviceCall.perform]
    split at h
    · rename_i hpoll
      cases h
      exact ⟨.inl rfl, by rw [hpoll]⟩
    · rename_i hpoll
      cases h
      exact ⟨.inr ⟨_, _, _, rfl⟩, by rw [hpoll]⟩
    · cases h
  case writeOutput =>
    refine .inr (.inr (.inr (.inl ⟨rfl, ?_⟩)))
    rw [DeviceCall.perform]
    split at h
    · rename_i hout
      cases h
      exact ⟨.inr ⟨_, _, _, rfl⟩, by rw [hout]⟩
    · cases h
  case halt =>
    cases h
    exact .inl ⟨rfl, rfl⟩
  all_goals
    repeat' split at h
    all_goals cases h

theorem microStep_halt {vm : MarieVMCore D} (h : vm.currentMicroOp = some .halt) :
    vm.microStep = (.halted, vm) := by
  have he : vm.beginInstruction.executeMicroOp .halt = (.error .halted, vm.beginInstruction) := rfl
  rw [microStep_of_error h he, begin_restore]

theorem microStep_undecodable {vm : MarieVMCore D} (h : vm.currentMicroOp = some .decode)
    (hnone : Instruction.decode vm.registers.ir = none) :
    vm.microStep = (.faulted (.invalidOpcode vm.beginInstruction.instructionAddress
      vm.registers.ir), vm) := by
  have he : vm.beginInstruction.executeMicroOp .decode = (.error (.faulted (.invalidOpcode
      vm.beginInstruction.instructionAddress vm.registers.ir)), vm.beginInstruction) := by
    rw [begin_frame]
    simp only [executeMicroOp, hnone]
  rw [microStep_of_error h he, begin_restore]

/-- A stopped micro-step, by the operation that stopped. -/
theorem microStep_stopped {vm : MarieVMCore D} (hstop : ∀ op, vm.microStep.1 ≠ .executed op) :
    vm.microStep.1 = .panicked ∨ ∃ op core, vm.currentMicroOp = some op ∧
      vm.beginInstruction.executeMicroOp op = (.error vm.microStep.1, core) ∧
      vm.microStep.2.ioDevice = core.ioDevice := by
  cases hop : vm.currentMicroOp with
  | none =>
    left
    simp only [microStep, begin_currentMicroOp, hop]
  | some op =>
    right
    rcases he : vm.beginInstruction.executeMicroOp op with ⟨outcome, core⟩
    cases outcome with
    | ok effect =>
      rw [microStep_of_execute hop he] at hstop
      exact absurd rfl (hstop op)
    | error stop =>
      rw [microStep_of_error hop he]
      exact ⟨op, core, rfl, he, rfl⟩

theorem microStep_stop_device {vm : MarieVMCore D} (hstop : ∀ op, vm.microStep.1 ≠ .executed op) :
    vm.microStep.2 = { vm with ioDevice := vm.microStep.2.ioDevice } :=
  microStep_stop rfl hstop

/-- `Halt` and an undecodable word stop every attempt in the same way, and leave the device
alone. -/
theorem microStep_final {vm : MarieVMCore D} (hfinal : vm.microStep.1.Final) (device : D) :
    ({ vm with ioDevice := device } : MarieVMCore D).microStep =
      (vm.microStep.1, { vm with ioDevice := device }) := by
  have hstop : ∀ op, vm.microStep.1 ≠ .executed op := by
    intro op hop
    rw [hop] at hfinal
    rcases hfinal with h | ⟨address, word, h⟩
    · cases h
    · cases h
  have hrefused : ∀ stop : MicroOutcome, stop.Refused → vm.microStep.1 ≠ stop := by
    intro stop hrefused heq
    rw [heq] at hfinal
    rcases hfinal with rfl | ⟨address, word, rfl⟩
    · rcases hrefused with h | ⟨_, _, _, h⟩ <;> cases h
    · rcases hrefused with h | ⟨_, _, _, h⟩ <;> cases h
  have hpanic : vm.microStep.1 ≠ .panicked := by
    intro heq
    rw [heq] at hfinal
    rcases hfinal with h | ⟨_, _, h⟩ <;> cases h
  obtain ⟨op, core, hop, he, -⟩ := (microStep_stopped hstop).resolve_left hpanic
  have hcurrent : ({ vm with ioDevice := device } : MarieVMCore D).currentMicroOp = some op := hop
  rcases execute_error_cases he with ⟨rfl, hout⟩ | ⟨rfl, hnone, hout⟩ | ⟨-, hout, -⟩ |
    ⟨-, hout, -⟩ | ⟨-, hout⟩
  · rw [hout, microStep_halt hcurrent]
  · rw [begin_frame] at hnone hout
    rw [hout, microStep_undecodable hcurrent hnone, begin_device]
  · exact absurd rfl (hrefused _ hout)
  · exact absurd rfl (hrefused _ hout)
  · exact absurd hout hpanic

/-- Attempts at a stopped operation, with whatever happens to the device between them. -/
inductive Retries (vm : MarieVMCore D) : MarieVMCore D → Prop where
  | stop : Retries vm vm
  | device {m : MarieVMCore D} (d : D) (h : Retries vm m) : Retries vm { m with ioDevice := d }
  | microStep {m : MarieVMCore D} (h : Retries vm m) : Retries vm m.microStep.2
  | step {m : MarieVMCore D} (h : Retries vm m) : Retries vm m.step.2

theorem step_of_final {vm : MarieVMCore D} (hfinal : vm.microStep.1.Final) :
    vm.step = (Continuation.ofStop (some vm.microStep.1), vm) := by
  have hsame : vm.microStep = (vm.microStep.1, vm) := microStep_final hfinal vm.ioDevice
  refine step_stop hsame fun op hop => ?_
  rw [hop] at hfinal
  rcases hfinal with h | ⟨_, _, h⟩ <;> cases h

/-- A final stop is met again by every later attempt. -/
theorem Retries.final {vm m : MarieVMCore D} (hfinal : vm.microStep.1.Final)
    (h : Retries vm m) :
    m = { vm with ioDevice := m.ioDevice } ∧ m.microStep = (vm.microStep.1, m) ∧
      m.step = (Continuation.ofStop (some vm.microStep.1), m) := by
  have hagain : ∀ m : MarieVMCore D, m = { vm with ioDevice := m.ioDevice } →
      m.microStep = (vm.microStep.1, m) ∧
        m.step = (Continuation.ofStop (some vm.microStep.1), m) := by
    intro m hm
    have hmicro := microStep_final hfinal m.ioDevice
    rw [← hm] at hmicro
    have hsame : m.microStep.1 = vm.microStep.1 := by rw [hmicro]
    refine ⟨hmicro, ?_⟩
    rw [← hsame]
    exact step_of_final (by rw [hsame]; exact hfinal)
  have hkept : m = { vm with ioDevice := m.ioDevice } := by
    induction h with
    | stop => rfl
    | device d h ih =>
      rw [ih]
    | microStep h ih =>
      rw [(hagain _ ih).1]
      exact ih
    | step h ih =>
      rw [(hagain _ ih).2]
      exact ih
  exact ⟨hkept, hagain m hkept⟩

/-- A stop that a device caused is met at the same call, which every attempt makes again. -/
theorem microStep_refused {vm : MarieVMCore D} (hrefused : vm.microStep.1.Refused) :
    ∃ call, vm.asks = some call ∧ vm.microStep.2.ioDevice = call.perform vm.ioDevice := by
  have hstop : ∀ op, vm.microStep.1 ≠ .executed op := by
    intro op hop
    rw [hop] at hrefused
    rcases hrefused with h | ⟨_, _, _, h⟩ <;> cases h
  have hother : ∀ stop : MicroOutcome, stop.Final ∨ stop = .panicked → vm.microStep.1 ≠ stop := by
    intro stop hother heq
    rw [heq] at hrefused
    rcases hother with (rfl | ⟨_, _, rfl⟩) | rfl
    all_goals rcases hrefused with h | ⟨_, _, _, h⟩ <;> cases h
  obtain ⟨op, core, hop, he, hdevice⟩ :=
    (microStep_stopped hstop).resolve_left (hother _ (.inr rfl))
  rw [begin_frame] at he
  rw [asks, hop, hdevice]
  rcases execute_error_cases he with ⟨rfl, hout⟩ | ⟨rfl, -, hout⟩ | ⟨rfl, -, hcore⟩ |
    ⟨rfl, -, hcore⟩ | ⟨rfl, hout⟩
  · exact absurd hout (hother _ (.inl (.inl rfl)))
  · exact absurd hout (hother _ (.inl (.inr ⟨_, _, rfl⟩)))
  · exact ⟨_, rfl, hcore⟩
  · exact ⟨_, rfl, hcore⟩
  · exact absurd hout (hother _ (.inr rfl))

/-- The call that comes next is made. -/
theorem microStep_asks {vm : MarieVMCore D} {call : DeviceCall} (h : vm.asks = some call) :
    vm.microStep.2.ioDevice = call.perform vm.ioDevice := by
  have hbegin : vm.beginInstruction.ioDevice = vm.ioDevice := by rw [begin_frame]
  have hregisters : vm.beginInstruction.registers = vm.registers := by rw [begin_frame]
  have hexecute : ∀ op, vm.currentMicroOp = some op →
      vm.microStep.2.ioDevice = (vm.beginInstruction.executeMicroOp op).2.ioDevice := by
    intro op hop
    rcases he : vm.beginInstruction.executeMicroOp op with ⟨outcome, core⟩
    cases outcome with
    | ok effect =>
      rw [microStep_of_execute hop he]
      rfl
    | error stop =>
      rw [microStep_of_error hop he]
      rfl
  simp only [asks] at h
  split at h
  · rename_i hop
    cases h
    rw [hexecute _ hop, DeviceCall.perform, ← hbegin]
    simp only [executeMicroOp]
    split
    all_goals
      rename_i hpoll
      rw [hpoll]
  · rename_i hop
    cases h
    rw [hexecute _ hop, DeviceCall.perform, ← hbegin, ← hregisters]
    simp only [executeMicroOp]
    split
    all_goals
      rename_i hout
      rw [hout]
  · cases h

/-- A stop changes nothing but the device that it asked. After `Halt` or an undecodable word
every later attempt repeats the stop; after a refusal every later attempt makes the same call,
whatever the device has become. A step back that fails changes nothing else either. -/
theorem stops_change_nothing (vm : MarieVMCore D) :
    ((∀ op, vm.microStep.1 ≠ .executed op) →
      vm.microStep.2 = { vm with ioDevice := vm.microStep.2.ioDevice }) ∧
    (vm.microStep.1.Final → ∀ m, Retries vm m →
      m = { vm with ioDevice := m.ioDevice } ∧ m.microStep = (vm.microStep.1, m) ∧
        m.step = (Continuation.ofStop (some vm.microStep.1), m)) ∧
    (vm.microStep.1.Refused → ∃ call, vm.asks = some call ∧
      vm.microStep.2.ioDevice = call.perform vm.ioDevice ∧
      ∀ d : D, ({ vm with ioDevice := d } : MarieVMCore D).microStep.2.ioDevice =
        call.perform d) ∧
    ∀ error, vm.microStepBack.1 = .error error →
      vm.microStepBack.2 = { vm with ioDevice := vm.microStepBack.2.ioDevice } := by
  refine ⟨microStep_stop_device, fun hfinal m => Retries.final hfinal, ?_, ?_⟩
  · intro hrefused
    obtain ⟨call, hasks, hcall⟩ := microStep_refused hrefused
    refine ⟨call, hasks, hcall, ?_⟩
    intro d
    have hagain : ({ vm with ioDevice := d } : MarieVMCore D).asks = some call := hasks
    exact microStep_asks hagain
  · intro error herror
    rcases vm.microStepBack_cases with ⟨entry, -, hok, -⟩ | ⟨_, -, hsame⟩
    · rw [hok] at herror
      cases herror
    · exact hsame

theorem stops_change_nothing_halt :
    let vm : MarieVMCore VecIo :=
      { MarieVMCore.new (VecIo.new []) with microPc := 5, decoded := Instruction.decode 0x7000 }
    vm.microStep.1 = .halted ∧ ∀ m, Retries vm m → m.microStep = (.halted, m) := by
  intro vm
  have hhalted : vm.microStep.1 = .halted := by decide +kernel
  refine ⟨hhalted, fun m hm => ?_⟩
  have hagain := ((stops_change_nothing vm).2.1 (.inl hhalted) m hm).2.1
  rw [hhalted] at hagain
  exact hagain

end Device

end MarieVMCore

end MarieRs.Vm
