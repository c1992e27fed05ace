import MarieRs.Vm.Isa

namespace MarieRs.Vm

/-- What micro-operations read and write: everything but the breakpoints, the
journal and the micro-program counter. -/
structure Datapath (D : Type) where
  registers : Registers
  memory : MemoryImage
  ioDevice : D
  decoded : Option Instruction
  instructionAddress : MemoryAddress
  comparison : Bool

namespace MarieVMCore

variable {D : Type}

def datapath (vm : MarieVMCore D) : Datapath D where
  registers := vm.registers
  memory := vm.memory
  ioDevice := vm.ioDevice
  decoded := vm.decoded
  instructionAddress := vm.instructionAddress
  comparison := vm.comparison

/-- The architectural view of a machine. -/
def arch (vm : MarieVMCore D) : Isa.State D where
  ac := vm.registers.ac
  pc := vm.registers.pc
  memory := vm.memory
  device := vm.ioDevice

theorem arch_of_datapath {v w : MarieVMCore D} (h : v.datapath = w.datapath) :
    v.arch = w.arch := by
  simp only [datapath, Datapath.mk.injEq] at h
  obtain ⟨hr, hm, hd, -, -, -⟩ := h
  simp [arch, hr, hm, hd]

theorem eq_of_datapath {v w : MarieVMCore D} (h : v.datapath = w.datapath) :
    w = { v with breakpoints := w.breakpoints, history := w.history, microPc := w.microPc } := by
  simp only [datapath, Datapath.mk.injEq] at h
  obtain ⟨hr, hm, hd, hi, ha, hc⟩ := h
  simp [hr, hm, hd, hi, ha, hc]

/-- The operations an instruction consists of. -/
def planned (i : Instruction) : List MicroOp := FETCH_DECODE ++ execute i.opcode

theorem planned_length (i : Instruction) : (planned i).length = Vm.cycleLength i.opcode := by
  simp [planned, Vm.cycleLength]

/-- The instruction the program counter points at. -/
def fetched (b : MarieVMCore D) : Option Instruction :=
  Instruction.decode (b.memory b.registers.pc)

theorem fetched_begin {b : MarieVMCore D} {i : Instruction} (hi : b.fetched = some i) :
    b.beginInstruction.fetched = some i := by
  rw [begin_frame]
  exact hi

section Device
variable [MarieVmIODevice D]

/-- An operation sees nothing but the datapath. -/
theorem execute_congr {v w : MarieVMCore D} (h : v.datapath = w.datapath) (op : MicroOp) :
    (v.executeMicroOp op).1 = (w.executeMicroOp op).1 ∧
    (v.executeMicroOp op).2.datapath = (w.executeMicroOp op).2.datapath := by
  rw [eq_of_datapath h]
  cases op <;> simp only [executeMicroOp, executeMicroOp.done, writeRegister, writeMemory_eq]
  all_goals repeat' split
  all_goals simp_all [datapath]

/-- Performs a list of operations, up to the first that stops. -/
def perform : List MicroOp → MarieVMCore D → Option MicroOutcome × MarieVMCore D
  | [], vm => (none, vm)
  | op :: ops, vm =>
    match vm.executeMicroOp op with
    | (.ok _, vm') => perform ops vm'
    | (.error stop, vm') => (some stop, vm')

theorem perform_append (ops ops' : List MicroOp) {vm vm' : MarieVMCore D}
    (h : perform ops vm = (none, vm')) : perform (ops ++ ops') vm = perform ops' vm' := by
  induction ops generalizing vm with
  | nil => cases h; rfl
  | cons op ops ih =>
    simp only [perform, List.cons_append] at h ⊢
    split at h
    · exact ih h
    · cases h

theorem perform_decoded {ops : List MicroOp} {vm vm' : MarieVMCore D}
    (hops : MicroOp.decode ∉ ops) (h : perform ops vm = (none, vm')) :
    vm'.decoded = vm.decoded := by
  induction ops generalizing vm with
  | nil => cases h; rfl
  | cons op ops ih =>
    simp only [List.mem_cons, not_or] at hops
    simp only [perform] at h
    split at h
    · rename_i e core he
      rw [ih hops.2 h, execute_decoded he (Ne.symm hops.1)]
    · cases h

/-- The fetch phase: the program counter moves on, and the word it pointed at
sits decoded in the instruction register. -/
theorem perform_fetch {b : MarieVMCore D} {i : Instruction} (hi : b.fetched = some i) :
    perform FETCH_DECODE b = (none,
      { b with
        registers :=
          { b.registers with
            mar := b.registers.pc
            mbr := b.memory b.registers.pc
            ir := b.memory b.registers.pc
            pc := b.registers.pc + 1 }
        decoded := some i }) := by
  have hd : Instruction.decode (b.memory b.registers.pc) = some i := hi
  simp [FETCH_DECODE, perform, executeMicroOp, executeMicroOp.done, writeRegister,
    Registers.write, Registers.read, hd]

/-- The machine `vm` is part-way through instruction `i`, which it began as `b`:
the operations up to the micro-program counter have been performed on `b`. -/
structure Underway (i : Instruction) (b vm : MarieVMCore D) : Prop where
  boundary : b.microPc = 0
  fetched : b.fetched = some i
  inside : vm.microPc < (planned i).length
  performed : ∃ c, perform ((planned i).take vm.microPc) b.beginInstruction = (none, c) ∧
    c.datapath = vm.beginInstruction.datapath

theorem Underway.start {i : Instruction} {b : MarieVMCore D} (hz : b.microPc = 0)
    (hi : b.fetched = some i) : Underway i b b where
  boundary := hz
  fetched := hi
  inside := by
    rw [hz, planned_length]
    exact Nat.lt_of_le_of_lt (Nat.zero_le _) (fetch_lt_cycleLength _)
  performed := ⟨b.beginInstruction, by simp [hz, perform], rfl⟩

/-- Once the fetch phase has been performed, the planned instruction is the
decoded one: nothing in an execute phase decodes again. -/
theorem perform_take_decoded {i : Instruction} {b c : MarieVMCore D} {k : Nat}
    (hi : b.fetched = some i) (hk : FETCH_DECODE.length ≤ k)
    (hc : perform ((planned i).take k) b.beginInstruction = (none, c)) : c.decoded = some i := by
  have hsplit : (planned i).take k =
      FETCH_DECODE ++ (execute i.opcode).take (k - FETCH_DECODE.length) := by
    rw [planned, List.take_append, List.take_of_length_le hk]
  rw [hsplit, perform_append _ _ (perform_fetch (fetched_begin hi))] at hc
  have hno : MicroOp.decode ∉ (execute i.opcode).take (k - FETCH_DECODE.length) :=
    fun hm => decode_not_mem_execute _ (List.mem_of_mem_take hm)
  exact perform_decoded hno hc

theorem Underway.decoded {i : Instruction} {b vm : MarieVMCore D} (h : Underway i b vm)
    (hk : FETCH_DECODE.length ≤ vm.microPc) : vm.decoded = some i := by
  obtain ⟨c, hc, hd⟩ := h.performed
  have hdec : vm.beginInstruction.decoded = c.decoded := congrArg Datapath.decoded hd.symm
  rw [begin_decoded] at hdec
  rw [hdec, perform_take_decoded h.fetched hk hc]

theorem Underway.currentMicroOp {i : Instruction} {b vm : MarieVMCore D} (h : Underway i b vm) :
    vm.currentMicroOp = (planned i)[vm.microPc]? := by
  unfold MarieVMCore.currentMicroOp planned
  by_cases hk : vm.microPc < FETCH_DECODE.length
  · rw [List.getElem?_append_left hk, List.getElem?_eq_getElem hk]
  · rw [List.getElem?_eq_none (by omega), List.getElem?_append_right (by omega),
      h.decoded (by omega)]

/-- One operation of an instruction underway either is not its last, and the
instruction stays underway, or returns to a boundary with all of it performed. -/
theorem Underway.executed {i : Instruction} {b vm vm' : MarieVMCore D} {op : MicroOp}
    (h : Underway i b vm) (hs : vm.microStep = (.executed op, vm')) :
    (planned i)[vm.microPc]? = some op ∧
    if vm.microPc + 1 < (planned i).length then
      vm'.microPc = vm.microPc + 1 ∧ Underway i b vm'
    else
      vm'.microPc = 0 ∧ ∃ c, perform (planned i) b.beginInstruction = (none, c) ∧
        c.datapath = vm'.datapath := by
  obtain ⟨hop, e, core, he, rfl⟩ := microStep_executed hs
  rw [h.currentMicroOp] at hop
  refine ⟨hop, ?_⟩
  obtain ⟨c, hc, hd⟩ := h.performed
  have htake : (planned i).take (vm.microPc + 1) = (planned i).take vm.microPc ++ [op] := by
    rw [List.take_add_one, hop, Option.toList_some]
  -- the operation is performed on the state the prefix led to
  obtain ⟨c', hc', hd'⟩ : ∃ c', perform ((planned i).take (vm.microPc + 1)) b.beginInstruction =
      (none, c') ∧ c'.datapath = core.datapath := by
    obtain ⟨h1, h2⟩ := execute_congr hd op
    rcases hx : c.executeMicroOp op with ⟨r, c'⟩
    simp only [hx, he] at h1 h2
    subst h1
    refine ⟨c', ?_, h2⟩
    rw [htake, perform_append _ _ hc]
    simp [perform, hx]
  have hpc : core.microPc = vm.microPc := (execute_frame he).2.2.1.trans (begin_microPc vm)
  -- the cycle is never shorter than what is still planned
  have hdecoded : FETCH_DECODE.length ≤ vm.microPc + 1 → core.decoded = some i := fun hk =>
    (congrArg Datapath.decoded hd').symm.trans (perform_take_decoded h.fetched hk hc')
  have hcycle : vm.microPc + 1 < core.cycleLength ↔ vm.microPc + 1 < (planned i).length := by
    by_cases hk : FETCH_DECODE.length ≤ vm.microPc + 1
    · rw [cycleLength, hdecoded hk, planned_length]
    · have h1 : FETCH_DECODE.length ≤ core.cycleLength := by
        unfold cycleLength
        split
        · exact (fetch_lt_cycleLength _).le
        · exact le_rfl
      have h2 := fetch_lt_cycleLength i.opcode
      rw [planned_length]
      omega
  have hadv : (advanceMicroPc (core.record ⟨vm.control, op, e⟩)).microPc =
      if vm.microPc + 1 < (planned i).length then vm.microPc + 1 else 0 := by
    have : (core.record ⟨vm.control, op, e⟩).cycleLength = core.cycleLength := rfl
    simp only [advanceMicroPc, this]
    rw [show (core.record ⟨vm.control, op, e⟩).microPc = vm.microPc from hpc]
    by_cases hlt : vm.microPc + 1 < (planned i).length
    · rw [if_neg (by have := hcycle.mpr hlt; omega), if_pos hlt]
    · rw [if_pos (by have := mt hcycle.mp hlt; omega), if_neg hlt]
  split
  · rename_i hlt
    rw [if_pos hlt] at hadv
    refine ⟨hadv, h.boundary, h.fetched, by omega, c', ?_, ?_⟩
    · rw [hadv]
      exact hc'
    · rw [beginInstruction, if_neg (by omega), hd']
      rfl
  · rename_i hlt
    rw [if_neg hlt] at hadv
    refine ⟨hadv, c', ?_, hd'⟩
    rwa [List.take_of_length_le (by omega)] at hc'

/-- One `step` performs what is left of the instruction, up to the operation
that stops it if one does. -/
theorem Underway.step_performs {i : Instruction} {b vm : MarieVMCore D} (h : Underway i b vm) :
    ∃ w, vm.step = (Continuation.ofStop (perform (planned i) b.beginInstruction).1, w) ∧
      w.arch = (perform (planned i) b.beginInstruction).2.arch ∧
      ((perform (planned i) b.beginInstruction).1 = none → w.microPc = 0) := by
  have hin := h.inside
  obtain ⟨c, hc, hd⟩ := h.performed
  have hsplit : planned i = (planned i).take vm.microPc ++
      (planned i)[vm.microPc] :: (planned i).drop (vm.microPc + 1) := by
    rw [List.getElem_cons_drop, List.take_append_drop]
  have hcur : vm.currentMicroOp = some (planned i)[vm.microPc] :=
    h.currentMicroOp.trans (List.getElem?_eq_getElem hin)
  -- the operation at hand goes as it does in the whole list
  obtain ⟨h1, h2⟩ := execute_congr hd (planned i)[vm.microPc]
  rcases hx : vm.beginInstruction.executeMicroOp (planned i)[vm.microPc] with ⟨r, core⟩
  rcases hy : c.executeMicroOp (planned i)[vm.microPc] with ⟨r', core'⟩
  simp only [hx, hy] at h1 h2
  subst h1
  cases r' with
  | error stop =>
    have hp : perform (planned i) b.beginInstruction = (some stop, core') := by
      rw [hsplit, perform_append _ _ hc]
      simp [perform, hy]
    have hne : ∀ op, stop ≠ .executed op := fun op hop => execute_error_ne (hop ▸ hx)
    refine ⟨core.restore vm.control, ?_, ?_, ?_⟩
    · rw [hp]
      exact step_stop (microStep_of_error hcur hx) hne
    · rw [hp, arch_of_datapath h2]
      rfl
    · simp [hp]
  | ok e =>
    have hs := microStep_of_execute hcur hx
    obtain ⟨-, hnext⟩ := h.executed hs
    split at hnext
    · rename_i hlt
      have hpc := hnext.1
      rw [step_inner hs (by omega)]
      exact hnext.2.step_performs
    · obtain ⟨hz, w, hw, hdw⟩ := hnext
      rw [hw]
      exact ⟨_, step_boundary hs hz, (arch_of_datapath hdw).symm, fun _ => hz⟩
termination_by (planned i).length - vm.microPc
decreasing_by omega

end Device

end MarieVMCore

end MarieRs.Vm
