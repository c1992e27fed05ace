import MarieRs.Vm.Documented

namespace MarieRs.Vm

/-- A device that always delivers the same value. -/
structure Always where
  value : Word

instance : MarieVmIODevice Always where
  pollInput device := (.ready (.ok device.value), device)
  output device _ := (.ok (), device)

namespace MarieVMCore

variable {D : Type}

/-- The machine `vm` is reached from `start`, and is part-way through the instruction
that began as `b`. Between operations the device may change in any way. Every
instruction that is over led from where it began to where `follows` allows. -/
inductive RunWhile [MarieVmIODevice D] (follows : MarieVMCore D → MarieVMCore D → Prop)
    (start : MarieVMCore D) : MarieVMCore D → MarieVMCore D → Prop where
  | start : RunWhile follows start start start
  | device {b vm : MarieVMCore D} (d : D) (h : RunWhile follows start b vm) :
    RunWhile follows start b { vm with ioDevice := d }
  | inside {b vm : MarieVMCore D} (h : RunWhile follows start b vm)
    (hpc : vm.microStep.2.microPc ≠ 0) : RunWhile follows start b vm.microStep.2
  | turn {b vm : MarieVMCore D} (h : RunWhile follows start b vm)
    (hpc : vm.microStep.2.microPc = 0) (hfollows : follows b vm.microStep.2) :
    RunWhile follows start vm.microStep.2 vm.microStep.2

/-- Any run at all. -/
abbrev Run [MarieVmIODevice D] (start b vm : MarieVMCore D) : Prop :=
  RunWhile (fun _ _ => True) start b vm

/-- The machine with a device that always delivers `value`. -/
def always (vm : MarieVMCore D) (value : Word) : MarieVMCore Always where
  registers := vm.registers
  memory := vm.memory
  ioDevice := ⟨value⟩
  breakpoints := vm.breakpoints
  history := vm.history
  microPc := vm.microPc
  decoded := vm.decoded
  instructionAddress := vm.instructionAddress
  comparison := vm.comparison

theorem begin_always (vm : MarieVMCore D) (value : Word) :
    (vm.always value).beginInstruction = vm.beginInstruction.always value := by
  by_cases hz : vm.microPc = 0
  · simp [beginInstruction, always, hz]
  · simp [beginInstruction, always, hz]

/-- Decoding ends the fetch phase, and input is read right after it. -/
theorem planned_index {i : Instruction} {k : Nat} :
    ((planned i)[k]? = some .decode → k = 4) ∧ ((planned i)[k]? = some .readInput → k = 5) := by
  obtain ⟨op, x⟩ := i
  have hall : ∀ k < 10, ((planned ⟨op, x⟩)[k]? = some .decode → k = 4) ∧
      ((planned ⟨op, x⟩)[k]? = some .readInput → k = 5) := by
    cases op <;> simp only [planned, execute] <;> decide
  by_cases hk : k < 10
  · exact hall k hk
  · have hlength := cycleLength_le op
    have hnone : (planned ⟨op, x⟩)[k]? = none := by
      rw [List.getElem?_eq_none_iff, planned_length]
      simp only
      omega
    simp [hnone]

/-- The instruction `i` that began as `b` is underway in `vm`, whatever the device
delivers as long as no input has been read. -/
def Tracked (i : Instruction) (b vm : MarieVMCore D) : Prop :=
  ∃ delivered, ∀ value, vm.microPc ≤ FETCH_DECODE.length ∨ value = delivered →
    Underway i (b.always value) (vm.always value)

theorem Tracked.start {i : Instruction} {b : MarieVMCore D} (hz : b.microPc = 0)
    (hi : b.fetched = some i) : Tracked i b b :=
  ⟨0, fun value _ => .start (b := b.always value) hz hi⟩

section Device
variable [MarieVmIODevice D]

theorem displayed_always (device : Always) (address : MemoryAddress) (previous current : Word) :
    displayed device address previous current = device := by
  unfold displayed
  split
  · rfl
  · split <;> rfl

/-- What an operation does with a device it also does with one that always delivers
what the device delivered. -/
theorem execute_always {vm vm' : MarieVMCore D} {op : MicroOp} {e : Effect}
    (h : vm.executeMicroOp op = (.ok e, vm')) :
    ∃ delivered, ∀ value, op ≠ .readInput ∨ value = delivered →
      (vm.always value).executeMicroOp op = (.ok e, vm'.always value) := by
  by_cases hop : op = .readInput
  · subst hop
    simp only [executeMicroOp] at h
    split at h
    · cases h
    · cases h
    · rename_i delivered device hpoll
      cases h
      refine ⟨delivered, fun value hvalue => ?_⟩
      obtain rfl := hvalue.resolve_left (not_not.mpr rfl)
      rfl
  · refine ⟨0, fun value _ => ?_⟩
    cases huses : op.usesDevice with
    | false =>
      have hexecute := (vm.execute_onto (⟨value⟩ : Always) huses).2
      rw [h] at hexecute
      exact hexecute
    | true =>
      cases op with
      | readInput => exact absurd rfl hop
      | writeMemory =>
        simp only [executeMicroOp, executeMicroOp.done, writeMemory_eq] at h ⊢
        cases h
        simp [always, displayed_always]
      | writeOutput =>
        simp only [executeMicroOp] at h
        split at h
        · cases h
        · cases h
          rfl
      | decode | compare | skipIfComparison | halt | transfer | readMemory | incrementPc | add
      | subtract | loadImmediate => cases huses

theorem microStep_always {vm vm' : MarieVMCore D} {op : MicroOp}
    (h : vm.microStep = (.executed op, vm')) :
    ∃ delivered, ∀ value, op ≠ .readInput ∨ value = delivered →
      (vm.always value).microStep = (.executed op, vm'.always value) := by
  obtain ⟨hop, e, core, he, rfl⟩ := microStep_executed h
  obtain ⟨delivered, hdelivered⟩ := execute_always he
  refine ⟨delivered, fun value hvalue => ?_⟩
  have hexecute := hdelivered value hvalue
  rw [← begin_always] at hexecute
  have hcurrent : (vm.always value).currentMicroOp = some op := hop
  rw [microStep_of_execute hcurrent hexecute]
  rfl

/-- One operation: the instruction is still underway, or it is over. -/
theorem Tracked.executed {i : Instruction} {b vm vm' : MarieVMCore D} {op : MicroOp}
    (h : Tracked i b vm) (hs : vm.microStep = (.executed op, vm')) :
    if vm.microPc + 1 < (planned i).length then vm'.microPc = vm.microPc + 1 ∧ Tracked i b vm'
    else
      vm'.microPc = 0 ∧ ∃ value c,
        perform (planned i) (b.always value).beginInstruction = (none, c) ∧
          c.datapath = (vm'.always value).datapath := by
  obtain ⟨delivered, hunderway⟩ := h
  obtain ⟨answer, hanswer⟩ := microStep_always hs
  have hread : op = .readInput → vm.microPc = FETCH_DECODE.length := by
    rintro rfl
    have hcurrent := (microStep_executed hs).1
    by_cases hk : vm.microPc ≤ FETCH_DECODE.length
    · have hplanned := (hunderway 0 (.inl hk)).currentMicroOp
      exact planned_index.2 (hplanned.symm.trans hcurrent)
    · have hplanned := (hunderway delivered (.inr rfl)).currentMicroOp
      exact planned_index.2 (hplanned.symm.trans hcurrent)
  -- one value is enough for all that has happened, this operation included
  obtain ⟨value, hvalue, hmay⟩ : ∃ value,
      (vm.microPc ≤ FETCH_DECODE.length ∨ value = delivered) ∧
        (op ≠ .readInput ∨ value = answer) := by
    by_cases hk : vm.microPc ≤ FETCH_DECODE.length
    · exact ⟨answer, .inl hk, .inr rfl⟩
    · exact ⟨delivered, .inr rfl, .inl fun hop => hk (hread hop).le⟩
  have hone := ((hunderway value hvalue).executed (hanswer value hmay)).2
  by_cases hlt : vm.microPc + 1 < (planned i).length
  · rw [if_pos (by exact hlt)] at hone ⊢
    have hpc : vm'.microPc = vm.microPc + 1 := hone.1
    refine ⟨hpc, value, fun other hother => ?_⟩
    rcases hother with hearly | rfl
    · have hop : op ≠ .readInput := fun hop => by
        have := hread hop
        omega
      have hvalued := ((hunderway other (.inl (by omega))).executed (hanswer other (.inl hop))).2
      rw [if_pos (by exact hlt)] at hvalued
      exact hvalued.2
    · exact hone.2
  · rw [if_neg (by exact hlt)] at hone ⊢
    obtain ⟨hz, c, hc, hd⟩ := hone
    exact ⟨hz, value, c, hc, hd⟩

/-- The first operation of an instruction always completes. -/
theorem microStep_begin {vm : MarieVMCore D} (hz : vm.microPc = 0) :
    ∃ vm', vm.microStep = (.executed (.transfer .mar .pc), vm') := by
  have hcurrent : vm.currentMicroOp = some (.transfer .mar .pc) := by
    rw [currentMicroOp, hz]
    rfl
  exact ⟨_, microStep_of_execute hcurrent rfl⟩

/-- An executed operation, or a stop that leaves all but the device. -/
theorem microStep_moves (vm : MarieVMCore D) :
    (∃ op vm', vm.microStep = (.executed op, vm')) ∨
      ∃ device, vm.microStep.2 = { vm with ioDevice := device } := by
  rcases hs : vm.microStep with ⟨out, vm'⟩
  rcases microStep_cases hs with ⟨op, -, -, rfl, -⟩ | ⟨-, hsame⟩
  · exact .inl ⟨op, vm', rfl⟩
  · exact .inr ⟨vm'.ioDevice, hsame⟩

variable {follows : MarieVMCore D → MarieVMCore D → Prop}

theorem RunWhile.tracked {start b vm : MarieVMCore D} (hstart : start.microPc = 0)
    (h : RunWhile follows start b vm) {i : Instruction} (hi : b.fetched = some i) :
    Tracked i b vm := by
  induction h with
  | start => exact .start hstart hi
  | device d h ih => exact ih hi
  | turn h hpc _ ih => exact .start hpc hi
  | @inside b vm h hpc ih =>
    rcases vm.microStep_moves with ⟨op, vm', hs⟩ | ⟨device, hdevice⟩
    · rw [hs] at hpc ⊢
      have hone := (ih hi).executed hs
      split at hone
      · exact hone.2
      · exact absurd hone.1 hpc
    · rw [hdevice]
      exact ih hi

/-- A whole instruction of a run. -/
theorem RunWhile.step {start b vm vm' : MarieVMCore D} (h : RunWhile follows start b vm)
    (hs : vm.step = (.continue_, vm')) (hfollows : follows b vm') :
    RunWhile follows start vm' vm' := by
  induction hk : 10 - vm.microPc using Nat.strong_induction_on generalizing vm with
  | _ k ih =>
    rcases hmicro : vm.microStep with ⟨out, next⟩
    have hnext : vm.microStep.2 = next := by rw [hmicro]
    cases out with
    | executed op =>
      by_cases hz : next.microPc = 0
      · rw [step_boundary hmicro hz] at hs
        cases hs
        rw [← hnext] at hz hfollows ⊢
        exact .turn h hz hfollows
      · obtain ⟨hpc, hten⟩ := microStep_microPc hmicro hz
        rw [step_inner hmicro hz] at hs
        have hinside := h.inside (by rwa [hnext])
        rw [hnext] at hinside
        exact ih _ (by omega) hinside hs rfl
    | halted | awaitingInput | faulted fault | panicked =>
      rw [step_stop hmicro (by simp)] at hs
      cases hs

theorem RunWhile.boundary {start b vm : MarieVMCore D} (hstart : start.microPc = 0)
    (h : RunWhile follows start b vm) : b.microPc = 0 := by
  induction h with
  | start => exact hstart
  | device d h ih => exact ih
  | turn h hpc _ ih => exact hpc
  | inside h hpc ih => exact ih

/-- The machine `vm` is fetching the word at which `b` stands, and has not decoded it. -/
structure Fetching (b vm : MarieVMCore D) : Prop where
  inside : vm.microPc < FETCH_DECODE.length
  memory : vm.memory = b.memory
  pc : vm.microPc = 0 → vm.registers.pc = b.registers.pc
  mar : vm.microPc = 1 → vm.registers.mar = b.registers.pc
  mbr : vm.microPc = 2 → vm.registers.mbr = b.memory b.registers.pc
  ir : 2 < vm.microPc → vm.registers.ir = b.memory b.registers.pc

/-- A word that does not decode is never got past. -/
theorem Fetching.executed {b vm vm' : MarieVMCore D} {op : MicroOp} (h : Fetching b vm)
    (hnone : b.fetched = none) (hs : vm.microStep = (.executed op, vm')) :
    vm'.microPc = vm.microPc + 1 ∧ Fetching b vm' := by
  obtain ⟨hop, e, core, he, rfl⟩ := microStep_executed hs
  have hlength := fetch_le_cycleLength (core.record ⟨vm.control, op, e⟩)
  have hpc : core.microPc = vm.microPc := (execute_frame he).2.2.1.trans (begin_microPc vm)
  have hadvance : ∀ k, vm.microPc = k → k < 4 →
      (advanceMicroPc (core.record ⟨vm.control, op, e⟩)).microPc = k + 1 := by
    intro k hk hlt
    have hrecord : (core.record ⟨vm.control, op, e⟩).microPc = k := hpc.trans hk
    have hfive : FETCH_DECODE.length = 5 := rfl
    simp only [advanceMicroPc, hrecord]
    rw [if_neg (by omega)]
  have hinside : vm.microPc < 5 := h.inside
  have hir : vm.microPc = 4 → Instruction.decode vm.registers.ir = none := fun hk => by
    rw [h.ir (by omega)]
    exact hnone
  rw [begin_frame] at he
  have hk : vm.microPc = 0 ∨ vm.microPc = 1 ∨ vm.microPc = 2 ∨ vm.microPc = 3 ∨
      vm.microPc = 4 := by omega
  rcases hk with hk | hk | hk | hk | hk
  all_goals
    simp only [currentMicroOp, hk, FETCH_DECODE, List.getElem?_cons_zero, List.getElem?_cons_succ,
      Option.some.injEq] at hop
    subst hop
    simp only [executeMicroOp, executeMicroOp.done, writeRegister, Prod.mk.injEq,
      Except.ok.injEq] at he
  case inr.inr.inr.inr => simp [hir hk] at he
  all_goals
    obtain ⟨-, rfl⟩ := he
    have hnext := hadvance _ hk (by decide)
    refine ⟨by rw [hnext, hk], ⟨by rw [hnext]; decide, h.memory, ?_, ?_, ?_, ?_⟩⟩
    all_goals
      rw [hnext]
      intro hother
      first
        | omega
        | simp [advanceMicroPc, record, Registers.write, Registers.read, h.memory, h.pc, h.mar,
            h.mbr, h.ir, hk]

theorem RunWhile.fetching {start b vm : MarieVMCore D} (hstart : start.microPc = 0)
    (h : RunWhile follows start b vm) (hnone : b.fetched = none) : Fetching b vm := by
  have hbegin : ∀ b : MarieVMCore D, b.microPc = 0 → Fetching b b := fun b hz =>
    ⟨by rw [hz]; decide, rfl, fun _ => rfl, by omega, by omega, by omega⟩
  induction h with
  | start => exact hbegin _ hstart
  | device d h ih =>
    obtain ⟨hinside, hmemory, hpc, hmar, hmbr, hir⟩ := ih hnone
    exact ⟨hinside, hmemory, hpc, hmar, hmbr, hir⟩
  | turn h hpc _ ih => exact hbegin _ hpc
  | @inside b vm h hpc ih =>
    rcases vm.microStep_moves with ⟨op, vm', hs⟩ | ⟨device, hdevice⟩
    · rw [hs]
      exact ((ih hnone).executed hnone hs).2
    · rw [hdevice]
      obtain ⟨hinside, hmemory, hpc, hmar, hmbr, hir⟩ := ih hnone
      exact ⟨hinside, hmemory, hpc, hmar, hmbr, hir⟩

/-- An instruction is only over if it decodes. -/
theorem RunWhile.decoded {start b vm : MarieVMCore D} (hstart : start.microPc = 0)
    (h : RunWhile follows start b vm) (hpc : vm.microStep.2.microPc = 0) :
    ∃ i, b.fetched = some i := by
  refine Option.ne_none_iff_exists'.mp fun hnone => ?_
  have hfetching := h.fetching hstart hnone
  rcases vm.microStep_moves with ⟨op, vm', hs⟩ | ⟨device, hdevice⟩
  · rw [hs] at hpc
    have hnext := (hfetching.executed hnone hs).1
    have hzero : vm'.microPc = 0 := hpc
    omega
  · rw [hdevice] at hpc
    have hzero : vm.microPc = 0 := hpc
    obtain ⟨vm', hs⟩ := microStep_begin hzero
    have hnext := (hfetching.executed hnone hs).1
    rw [hs] at hdevice
    have hsame : vm'.microPc = 0 := (congrArg microPc hdevice).trans hzero
    omega

/-- When an instruction is over, it has had its documented effect, for some input. -/
theorem RunWhile.turned {start b vm : MarieVMCore D} (hstart : start.microPc = 0)
    (h : RunWhile follows start b vm) (hpc : vm.microStep.2.microPc = 0) {i : Instruction}
    (hi : b.fetched = some i) :
    i.opcode ≠ .halt ∧ ∃ value,
      (vm.microStep.2.always value).arch = Isa.exec i (b.always value).arch := by
  obtain ⟨op, vm', hs⟩ : ∃ op vm', vm.microStep = (.executed op, vm') := by
    rcases vm.microStep_moves with hs | ⟨device, hdevice⟩
    · exact hs
    · rw [hdevice] at hpc
      have hzero : vm.microPc = 0 := hpc
      obtain ⟨vm', hs⟩ := microStep_begin hzero
      exact ⟨_, vm', hs⟩
  rw [hs] at hpc ⊢
  have hone := (h.tracked hstart hi).executed hs
  split at hone
  · have hzero : vm'.microPc = 0 := hpc
    have hnext := hone.1
    omega
  · obtain ⟨-, value, c, hc, hd⟩ := hone
    have hfetched : (b.always value).beginInstruction.fetched = some i :=
      fetched_begin (b := b.always value) hi
    have hanswers : Isa.Answers i.opcode (b.always value).beginInstruction.ioDevice
        (b.always value).beginInstruction.registers.ac :=
      ⟨fun _ => ⟨_, _, rfl⟩, fun _ => ⟨_, rfl⟩⟩
    obtain ⟨hstop, harch⟩ := perform_planned hfetched hanswers
    rw [hc] at hstop harch
    refine ⟨fun hhalt => ?_, value, ?_⟩
    · rw [if_pos hhalt] at hstop
      cases hstop
    · rw [← arch_of_datapath hd, harch, begin_frame]
      rfl

/-- A step that completes has had the documented effect, for some input. -/
theorem RunWhile.step_turned {start b vm vm' : MarieVMCore D} (hstart : start.microPc = 0)
    (h : RunWhile follows start b vm) (hs : vm.step = (.continue_, vm')) {i : Instruction}
    (hi : b.fetched = some i) :
    i.opcode ≠ .halt ∧ vm'.microPc = 0 ∧ ∃ value,
      (vm'.always value).arch = Isa.exec i (b.always value).arch := by
  induction hk : 10 - vm.microPc using Nat.strong_induction_on generalizing vm with
  | _ k ih =>
    rcases hmicro : vm.microStep with ⟨out, next⟩
    have hnext : vm.microStep.2 = next := by rw [hmicro]
    cases out with
    | executed op =>
      by_cases hz : next.microPc = 0
      · rw [step_boundary hmicro hz] at hs
        cases hs
        rw [← hnext] at hz ⊢
        obtain ⟨hhalt, hvalue⟩ := h.turned hstart hz hi
        exact ⟨hhalt, hz, hvalue⟩
      · obtain ⟨hpc, hten⟩ := microStep_microPc hmicro hz
        rw [step_inner hmicro hz] at hs
        have hinside := h.inside (by rwa [hnext])
        rw [hnext] at hinside
        exact ih _ (by omega) hinside hs rfl
    | halted | awaitingInput | faulted fault | panicked =>
      rw [step_stop hmicro (by simp)] at hs
      cases hs

/-- What is decoded is the word that the instruction began at. -/
theorem RunWhile.decodes {start b vm : MarieVMCore D} (hstart : start.microPc = 0)
    (h : RunWhile follows start b vm) (hcurrent : vm.currentMicroOp = some .decode) {i : Instruction}
    (hi : b.fetched = some i) :
    vm.instructionAddress = b.registers.pc ∧ vm.registers.ir = b.memory b.registers.pc := by
  obtain ⟨delivered, hunderway⟩ := h.tracked hstart hi
  have hone := hunderway delivered (.inr rfl)
  have hk : (vm.always delivered).microPc = 4 :=
    planned_index.1 (hone.currentMicroOp.symm.trans hcurrent)
  obtain ⟨c, hc, hd⟩ := hone.performed
  have hbegin : (b.always delivered).beginInstruction =
      { b.always delivered with instructionAddress := b.registers.pc } :=
    if_pos (h.boundary hstart)
  have hkeep : (vm.always delivered).beginInstruction = vm.always delivered :=
    if_neg (by rw [hk]; decide)
  have htake : (planned i).take 4 =
      [.transfer .mar .pc, .readMemory, .transfer .ir .mbr, .incrementPc] := rfl
  rw [hk, htake, hbegin] at hc
  simp only [perform, executeMicroOp, executeMicroOp.done, writeRegister, Registers.write,
    Registers.read, MemoryAddress.newMasked_value, Prod.mk.injEq, true_and] at hc
  rw [hkeep, ← hc] at hd
  exact ⟨(congrArg Datapath.instructionAddress hd).symm,
    (congrArg (fun d => d.registers.ir) hd).symm⟩

theorem execute_invalidOpcode {vm vm' : MarieVMCore D} {op : MicroOp} {address : MemoryAddress}
    {word : Word}
    (h : vm.executeMicroOp op = (.error (.faulted (.invalidOpcode address word)), vm')) :
    op = .decode ∧ Instruction.decode vm.registers.ir = none := by
  rcases execute_faulted h with ⟨hop, hnone, -⟩ | ⟨-, error, hio⟩ | ⟨-, error, hio⟩
  · exact ⟨hop, hnone⟩
  · cases hio
  · cases hio

theorem RunWhile.not_invalid {start b vm : MarieVMCore D} (hstart : start.microPc = 0)
    (h : RunWhile follows start b vm) {i : Instruction} (hi : b.fetched = some i)
    (address : MemoryAddress) (word : Word) :
    vm.microStep.1 ≠ .faulted (.invalidOpcode address word) := by
  intro hfault
  simp only [microStep, begin_currentMicroOp] at hfault
  split at hfault
  · cases hfault
  · rename_i op hop
    split at hfault
    · cases hfault
    · rename_i stop core he
      have hstop : stop = .faulted (.invalidOpcode address word) := hfault
      rw [hstop] at he
      obtain ⟨rfl, hnone⟩ := execute_invalidOpcode he
      rw [begin_frame] at hnone
      have hir := (h.decodes hstart hop hi).2
      rw [hir] at hnone
      rw [fetched, hnone] at hi
      cases hi

end Device

end MarieVMCore

end MarieRs.Vm
