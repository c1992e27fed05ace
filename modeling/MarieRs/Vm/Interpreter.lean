import MarieRs.Lib.Triples
import MarieRs.Vm.Stops
import MarieRs.Vm.Trajectory

namespace MarieRs.Vm

open Lib.Triples
open MarieVmIODevice

namespace Isa

/-- What can stop an instruction. -/
inductive Stop where
  | halted
  | awaitingInput
  | faulted (fault : Fault)
  deriving DecidableEq, Repr

/-- How `step` reports an instruction that is stopped, or is not. -/
def Stop.report : Option Stop → Continuation
  | none => .continue_
  | some .halted => .halted
  | some .awaitingInput => .awaitingInput
  | some (.faulted fault) => .faulted fault

variable {D : Type} [MarieVmIODevice D]

/-- One instruction as documented: what stops it, and the state it leaves. An instruction that is
stopped changes nothing but the device that it asked, and is met again by the next attempt. -/
def step (s : State D) : Option Stop × State D :=
  match Instruction.decode (s.memory s.pc) with
  | none => (some (.faulted (.invalidOpcode s.pc (s.memory s.pc))), s)
  | some i =>
    match i.opcode with
    | .halt => (some .halted, s)
    | .input =>
      match pollInput s.device with
      | (.pending, device) => (some .awaitingInput, { s with device })
      | (.ready (.error error), device) =>
        (some (.faulted (.io s.pc .input error)), { s with device })
      | (.ready (.ok _), _) => (none, exec i s)
    | .output =>
      match output s.device s.ac with
      | (.error error, device) => (some (.faulted (.io s.pc .output error)), { s with device })
      | (.ok (), _) => (none, exec i s)
    | _ => (none, exec i s)

theorem step_undecodable {s : State D} (h : Instruction.decode (s.memory s.pc) = none) :
    step s = (some (.faulted (.invalidOpcode s.pc (s.memory s.pc))), s) := by
  simp only [step, h]

/-- An instruction whose device does its part is executed, unless it halts. -/
theorem step_answered {s : State D} {i : Instruction}
    (hi : Instruction.decode (s.memory s.pc) = some i) (ha : Answers i.opcode s.device s.ac) :
    step s = if i.opcode = .halt then (some .halted, s) else (none, exec i s) := by
  obtain ⟨op, x⟩ := i
  simp only [step, hi]
  cases op with
  | input =>
    obtain ⟨value, device, hpoll⟩ := ha.delivers rfl
    simp only [hpoll]
    rfl
  | output =>
    obtain ⟨device, hout⟩ := ha.accepts rfl
    simp only [hout]
    rfl
  | _ => rfl

theorem step_input {s : State D} {x : MemoryAddress}
    (hi : Instruction.decode (s.memory s.pc) = some ⟨.input, x⟩) :
    (∀ device, pollInput s.device = (.pending, device) →
      step s = (some .awaitingInput, { s with device })) ∧
    ∀ error device, pollInput s.device = (.ready (.error error), device) →
      step s = (some (.faulted (.io s.pc .input error)), { s with device }) := by
  refine ⟨fun device hpoll => ?_, fun error device hpoll => ?_⟩
  all_goals simp only [step, hi, hpoll]

theorem step_output {s : State D} {x : MemoryAddress}
    (hi : Instruction.decode (s.memory s.pc) = some ⟨.output, x⟩) {error : IoError} {device : D}
    (hout : output s.device s.ac = (.error error, device)) :
    step s = (some (.faulted (.io s.pc .output error)), { s with device }) := by
  simp only [step, hi, hout]

theorem step_frame {s : State D} (h : (step s).1 ≠ none) :
    (step s).2 = { s with device := (step s).2.device } := by
  cases hi : Instruction.decode (s.memory s.pc) with
  | none => rw [step_undecodable hi]
  | some i =>
    by_cases ha : Answers i.opcode s.device s.ac
    · rw [step_answered hi ha] at h ⊢
      split at h
      · rename_i hhalt
        rw [if_pos hhalt]
      · exact absurd rfl h
    · obtain ⟨op, x⟩ := i
      cases op
      case input =>
        obtain ⟨hpending, hrefused⟩ := step_input hi
        rcases hpoll : pollInput s.device with ⟨answer, device⟩
        rcases answer with _ | error | value
        · rw [hpending device hpoll]
        · rw [hrefused error device hpoll]
        · exact absurd ⟨fun _ => ⟨value, device, hpoll⟩, by simp⟩ ha
      case output =>
        rcases hout : output s.device s.ac with ⟨answer, device⟩
        cases answer with
        | error error => rw [step_output hi hout]
        | ok _ => exact absurd ⟨by simp, fun _ => ⟨device, hout⟩⟩ ha
      all_goals exact absurd ⟨by simp, by simp⟩ ha

/-- The documented machine, instruction by instruction. -/
def turn (s : State D) : (Stop × State D) ⊕ State D :=
  match step s with
  | (none, s) => .inr s
  | (some stop, s) => .inl (stop, s)

theorem turn_goes {s s' : State D} : turn s = .inr s' ↔ step s = (none, s') := by
  unfold turn
  rcases step s with ⟨_ | stop, s''⟩
  · simp
  · simp

theorem turn_stops {s s' : State D} {stop : Stop} :
    turn s = .inl (stop, s') ↔ step s = (some stop, s') := by
  unfold turn
  rcases step s with ⟨_ | stop', s''⟩
  · simp
  · simp

end Isa

namespace MarieVMCore

variable {D : Type}

section Device
variable [MarieVmIODevice D]

/-- Operations that have nothing to do with the device, on another device. -/
theorem perform_onto {ops : List MicroOp} (hops : ∀ op ∈ ops, op.usesDevice = false)
    {b c : MarieVMCore D} (device : D) (h : perform ops b = (none, c)) :
    perform ops (b.onto device) = (none, c.onto device) := by
  induction ops generalizing b with
  | nil =>
    cases h
    rfl
  | cons op ops ih =>
    have hother := (execute_onto b device (hops op List.mem_cons_self)).2
    rw [perform] at h ⊢
    rcases he : b.executeMicroOp op with ⟨result, b'⟩
    rw [he] at h hother
    cases result with
    | error stop => cases h
    | ok effect =>
      rw [hother]
      exact ih (fun op' hop' => hops op' (List.mem_cons_of_mem op hop')) h

omit [MarieVmIODevice D] in
theorem onto_eq (vm : MarieVMCore D) (device : D) :
    vm.onto device = { vm with ioDevice := device } := rfl

/-- Whatever stops an instruction, nothing before it has used the device. -/
theorem planned_before {i : Instruction} {k : Nat} {op : MicroOp}
    (hop : (planned i)[k]? = some op)
    (hstops : op ∈ [.decode, .compare, .readInput, .writeOutput, .halt]) :
    ∀ op' ∈ (planned i).take k, op'.usesDevice = false := by
  obtain ⟨opcode, x⟩ := i
  have hall : ∀ k < 10, ∀ op, (planned ⟨opcode, x⟩)[k]? = some op →
      op ∈ [.decode, .compare, .readInput, .writeOutput, .halt] →
      ∀ op' ∈ (planned ⟨opcode, x⟩).take k, op'.usesDevice = false := by
    cases opcode <;> simp only [planned, execute] <;> decide
  have hk : k < 10 := by
    have hlength := cycleLength_le opcode
    obtain ⟨hlt, -⟩ := List.getElem?_eq_some_iff.mp hop
    rw [planned_length] at hlt
    exact Nat.lt_of_lt_of_le hlt hlength
  exact hall k hk op hop hstops

/-- The operations of an instruction, up to one that stops it, do what is documented. By then the
program counter has moved on. -/
theorem perform_documented {b : MarieVMCore D} {i : Instruction} (hi : b.fetched = some i)
    (haddress : b.instructionAddress = b.registers.pc) :
    Continuation.ofStop (perform (planned i) b).1 = Isa.Stop.report (Isa.step b.arch).1 ∧
      ((perform (planned i) b).1 = none →
        (perform (planned i) b).2.arch = (Isa.step b.arch).2) ∧
      ((perform (planned i) b).1 ≠ none →
        (Isa.step b.arch).2 = { b.arch with device := (perform (planned i) b).2.ioDevice } ∧
        (perform (planned i) b).2.arch =
          { (Isa.step b.arch).2 with pc := b.registers.pc + 1 }) := by
  have hdecode : Instruction.decode (b.arch.memory b.arch.pc) = some i := hi
  by_cases ha : Isa.Answers i.opcode b.ioDevice b.registers.ac
  · obtain ⟨hstop, harch⟩ := perform_planned hi ha
    rw [Isa.step_answered hdecode ha, hstop, harch]
    by_cases hhalt : i.opcode = .halt
    · have hexec : Isa.exec i b.arch = { b.arch with pc := b.registers.pc + 1 } := by
        simp only [Isa.exec, hhalt]
        rfl
      have hdevice : (perform (planned i) b).2.ioDevice = b.ioDevice :=
        congrArg Isa.State.device (harch.trans hexec)
      simp only [if_pos hhalt, Continuation.ofStop, hdevice, hexec]
      exact ⟨rfl, by simp, fun _ => ⟨rfl, trivial⟩⟩
    · simp only [if_neg hhalt, Continuation.ofStop]
      exact ⟨rfl, fun _ => trivial, fun hne => absurd rfl hne⟩
  · -- only an instruction that asks the device can be refused
    obtain ⟨op, x⟩ := i
    rw [planned, perform_append _ _ (perform_fetch hi)]
    cases op
    case input =>
      obtain ⟨hpending, hrefused⟩ := Isa.step_input hdecode
      rcases hpoll : pollInput b.ioDevice with ⟨answer, device⟩
      rcases answer with _ | error | value
      · rw [hpending device hpoll]
        simp [execute, INPUT, perform, executeMicroOp, hpoll, Continuation.ofStop,
          Isa.Stop.report, arch]
      · rw [hrefused error device hpoll]
        simp [execute, INPUT, perform, executeMicroOp, hpoll, Continuation.ofStop,
          Isa.Stop.report, haddress, arch]
      · exact absurd ⟨fun _ => ⟨value, device, hpoll⟩, by simp⟩ ha
    case output =>
      rcases hout : output b.ioDevice b.registers.ac with ⟨answer, device⟩
      cases answer with
      | error error =>
        rw [Isa.step_output hdecode hout]
        simp [execute, OUTPUT, perform, executeMicroOp, executeMicroOp.done, writeRegister,
          Registers.write, Registers.read, hout, arch, Continuation.ofStop, Isa.Stop.report,
          haddress]
      | ok _ => exact absurd ⟨by simp, fun _ => ⟨device, hout⟩⟩ ha
    all_goals exact absurd ⟨by simp, by simp⟩ ha

omit [MarieVmIODevice D] in
theorem begin_arch (vm : MarieVMCore D) : vm.beginInstruction.arch = vm.arch := by
  rw [begin_frame]
  rfl

/-- The machine `vm` is fetching a word that does not decode, as `b` began to do. -/
structure Stuck (b vm : MarieVMCore D) : Prop extends Fetching b vm where
  boundary : b.microPc = 0
  undecodable : b.fetched = none
  ac : vm.registers.ac = b.registers.ac
  device : vm.ioDevice = b.ioDevice
  counter : vm.registers.pc = if vm.microPc = 4 then b.registers.pc + 1 else b.registers.pc
  address : vm.microPc ≠ 0 → vm.instructionAddress = b.registers.pc

/-- The machine is at work on the instruction before which the documented machine stands. What it
has done of it already does not show there. -/
inductive Represents (vm : MarieVMCore D) (s : Isa.State D) : Prop where
  | underway {i : Instruction} {b : MarieVMCore D} (h : Underway i b vm) (hs : b.arch = s)
  | stuck {b : MarieVMCore D} (h : Stuck b vm) (hs : b.arch = s)

theorem Represents.boundary {vm : MarieVMCore D} (hz : vm.microPc = 0) :
    Represents vm vm.arch := by
  cases hi : vm.fetched with
  | some i => exact .underway (.start hz hi) rfl
  | none =>
    have hfetching : Fetching vm vm :=
      ⟨by rw [hz]; decide, rfl, fun _ => rfl, by omega, by omega, by omega⟩
    refine .stuck ⟨hfetching, hz, hi, rfl, rfl, ?_, absurd hz⟩ rfl
    rw [if_neg (by omega)]

/-- Between instructions the two machines look the same. -/
theorem Represents.arch {vm : MarieVMCore D} {s : Isa.State D} (h : Represents vm s)
    (hz : vm.microPc = 0) : vm.arch = s := by
  cases h with
  | @underway i b h hs =>
    obtain ⟨c, hc, hd⟩ := h.performed
    rw [hz, List.take_zero] at hc
    cases hc
    have hsame := arch_of_datapath hd
    rw [begin_arch, begin_arch] at hsame
    rw [← hs, hsame]
  | stuck h hs =>
    rw [← hs]
    simp only [MarieVMCore.arch, h.memory, h.pc hz, h.ac, h.device]

omit [MarieVmIODevice D] in
/-- Where an instruction begins, the micro-step notes the address that it reports. -/
theorem begin_address {b : MarieVMCore D} (hz : b.microPc = 0) :
    b.beginInstruction.instructionAddress = b.beginInstruction.registers.pc := by
  rw [beginInstruction, if_pos hz]

/-- The operation at hand, in the list of all of them. -/
theorem Underway.current {i : Instruction} {b vm : MarieVMCore D} (h : Underway i b vm) :
    ∃ op, vm.currentMicroOp = some op ∧ (planned i)[vm.microPc]? = some op ∧
      planned i = (planned i).take vm.microPc ++ op :: (planned i).drop (vm.microPc + 1) := by
  have hin := h.inside
  have hop : (planned i)[vm.microPc]? = some (planned i)[vm.microPc] :=
    List.getElem?_eq_getElem hin
  refine ⟨_, h.currentMicroOp.trans hop, hop, ?_⟩
  rw [List.getElem_cons_drop, List.take_append_drop]

/-- What has been done so far would have been done on another device too. -/
theorem Underway.onto {i : Instruction} {b vm : MarieVMCore D} (h : Underway i b vm) (device : D)
    (hbefore : ∀ op ∈ (planned i).take vm.microPc, op.usesDevice = false) :
    Underway i (b.onto device) (vm.onto device) := by
  obtain ⟨c, hc, hd⟩ := h.performed
  refine ⟨h.boundary, h.fetched, h.inside, c.onto device, ?_, ?_⟩
  · rw [onto_eq b, begin_device]
    exact perform_onto hbefore device hc
  · rw [onto_eq vm, begin_device, eq_of_datapath hd]
    rfl

/-- An operation that stops an instruction stops it as documented, and leaves the machine at work
on it. -/
theorem Underway.stops {i : Instruction} {b vm vm' : MarieVMCore D} {stop : MicroOutcome}
    (h : Underway i b vm) (hs : vm.microStep = (stop, vm')) (hx : ∀ op, stop ≠ .executed op) :
    Continuation.ofStop (some stop) = Isa.Stop.report (Isa.step b.arch).1 ∧
      Represents vm' (Isa.step b.arch).2 ∧
      vm'.arch = { (Isa.step b.arch).2 with pc := b.registers.pc + 1 } := by
  obtain ⟨op, hcur, hop, hsplit⟩ := h.current
  obtain ⟨c, hc, hd⟩ := h.performed
  -- the operation stops the whole list as it stops the machine
  obtain ⟨hresult, hafter⟩ := execute_congr hd op
  rcases hv : vm.beginInstruction.executeMicroOp op with ⟨result, core⟩
  rcases hl : c.executeMicroOp op with ⟨result', core'⟩
  simp only [hv, hl] at hresult hafter
  subst hresult
  cases result' with
  | ok effect =>
    rw [microStep_of_execute hcur hv] at hs
    cases hs
    exact absurd rfl (hx _)
  | error stop' =>
    have hmicro := microStep_of_error hcur hv
    rw [hs] at hmicro
    obtain ⟨rfl, hvm'⟩ := Prod.mk.inj hmicro
    have hperform : perform (planned i) b.beginInstruction = (some stop, core') := by
      rw [hsplit, perform_append _ _ hc]
      simp only [perform, hl]
    obtain ⟨hreport, -, hstate⟩ :=
      perform_documented (fetched_begin h.fetched) (begin_address h.boundary)
    rw [hperform, begin_arch] at hreport hstate
    obtain ⟨hstate, harch⟩ := hstate (by simp)
    refine ⟨hreport, ?_, ?_⟩
    · have hstops : op ∈ [.decode, .compare, .readInput, .writeOutput, .halt] := by
        rcases execute_error_cases hv with ⟨rfl, -⟩ | ⟨rfl, -⟩ | ⟨rfl, -⟩ | ⟨rfl, -⟩ |
          ⟨rfl, -⟩ <;> simp
      have hsame : vm' = vm.onto core.ioDevice := by
        rw [microStep_stop hs hx, onto_eq, hvm']
        rfl
      have hdevice : core'.ioDevice = core.ioDevice := congrArg Datapath.ioDevice hafter
      rw [hstate, hsame, hdevice]
      exact .underway (h.onto core.ioDevice (planned_before hop hstops)) rfl
    · have hpc : b.beginInstruction.registers.pc = b.registers.pc :=
        congrArg Isa.State.pc b.begin_arch
      rw [← hpc, ← harch, arch_of_datapath hafter, hvm']
      rfl

/-- A word that does not decode stops the machine at its decoding, as documented. -/
theorem Stuck.stops {b vm vm' : MarieVMCore D} {stop : MicroOutcome} (h : Stuck b vm)
    (hs : vm.microStep = (stop, vm')) (hx : ∀ op, stop ≠ .executed op) :
    stop = .faulted (.invalidOpcode b.registers.pc (b.memory b.registers.pc)) ∧ vm' = vm ∧
      vm.microPc = 4 := by
  have hinside : vm.microPc < 5 := h.inside
  have hfour : vm.microPc = 4 := by
    by_contra hne
    have hk : vm.microPc = 0 ∨ vm.microPc = 1 ∨ vm.microPc = 2 ∨ vm.microPc = 3 := by omega
    obtain ⟨op, hop, hexec⟩ : ∃ op, vm.currentMicroOp = some op ∧
        ∃ effect core, vm.beginInstruction.executeMicroOp op = (.ok effect, core) := by
      unfold MarieVMCore.currentMicroOp
      rcases hk with hk | hk | hk | hk <;> rw [hk] <;> exact ⟨_, rfl, _, _, rfl⟩
    obtain ⟨effect, core, he⟩ := hexec
    rw [microStep_of_execute hop he] at hs
    cases hs
    exact hx _ rfl
  have hcurrent : vm.currentMicroOp = some .decode := by
    rw [MarieVMCore.currentMicroOp, hfour]
    rfl
  have hir := h.ir (by omega)
  have hundecodable : Instruction.decode vm.registers.ir = none := by
    rw [hir]
    exact h.undecodable
  have hbegin : vm.beginInstruction = vm := by rw [beginInstruction, if_neg (by omega)]
  rw [microStep_undecodable hcurrent hundecodable, hbegin, h.address (by omega), hir] at hs
  cases hs
  exact ⟨rfl, rfl, hfour⟩

/-- The fetch phase touches neither the accumulator nor the device, and moves the program counter
on once. -/
theorem Fetching.frame {b vm vm' : MarieVMCore D} {op : MicroOp} (h : Fetching b vm)
    (hs : vm.microStep = (.executed op, vm')) :
    vm'.registers.ac = vm.registers.ac ∧ vm'.ioDevice = vm.ioDevice ∧
      vm'.instructionAddress = vm.beginInstruction.instructionAddress ∧
      vm'.registers.pc = if vm.microPc = 3 then vm.registers.pc + 1 else vm.registers.pc := by
  obtain ⟨hop, effect, core, he, rfl⟩ := microStep_executed hs
  have haddress := (execute_frame he).2.2.2
  have hinside : vm.microPc < 5 := h.inside
  have hk : vm.microPc = 0 ∨ vm.microPc = 1 ∨ vm.microPc = 2 ∨ vm.microPc = 3 ∨
      vm.microPc = 4 := by omega
  rw [begin_frame] at he
  unfold currentMicroOp at hop
  rcases hk with hk | hk | hk | hk | hk
  all_goals
    rw [hk] at hop ⊢
    cases hop
  case inr.inr.inr.inr =>
    obtain ⟨i, -, rfl⟩ := execute_decode he
    exact ⟨rfl, rfl, haddress, rfl⟩
  all_goals
    simp only [executeMicroOp, executeMicroOp.done, writeRegister, Prod.mk.injEq] at he
    obtain ⟨-, rfl⟩ := he
    refine ⟨rfl, rfl, haddress, ?_⟩
    simp [advanceMicroPc, record, Registers.write]

theorem Stuck.executed {b vm vm' : MarieVMCore D} {op : MicroOp} (h : Stuck b vm)
    (hs : vm.microStep = (.executed op, vm')) : vm'.microPc ≠ 0 ∧ Stuck b vm' := by
  obtain ⟨hpc, hnext⟩ := h.toFetching.executed h.undecodable hs
  obtain ⟨hac, hdevice, haddress, hcounter⟩ := h.frame hs
  have hbegin : vm.beginInstruction.instructionAddress = b.registers.pc := by
    by_cases hzero : vm.microPc = 0
    · rw [begin_address hzero, begin_frame]
      exact h.pc hzero
    · rw [beginInstruction, if_neg hzero]
      exact h.address hzero
  refine ⟨by omega, hnext, h.boundary, h.undecodable, hac.trans h.ac, hdevice.trans h.device, ?_,
    fun _ => haddress.trans hbegin⟩
  have hinside : vm'.microPc < 5 := hnext.inside
  rw [hcounter, h.counter, if_neg (show vm.microPc ≠ 4 by omega)]
  by_cases hthree : vm.microPc = 3
  · rw [if_pos hthree, if_pos (by omega)]
  · rw [if_neg hthree, if_neg (by omega)]

/-- What a micro-step is to the documented machine: nothing yet, or the instruction, or what stops
it. -/
inductive Advances (vm : MarieVMCore D) (s : Isa.State D) : Prop where
  | inside {op : MicroOp} (hs : vm.microStep = (.executed op, vm.microStep.2))
    (hz : vm.microStep.2.microPc ≠ 0) (h : Represents vm.microStep.2 s)
  | done {op : MicroOp} (hs : vm.microStep = (.executed op, vm.microStep.2))
    (hz : vm.microStep.2.microPc = 0) (hnone : (Isa.step s).1 = none)
    (h : vm.microStep.2.arch = (Isa.step s).2)
  | stopped (hx : ∀ op, vm.microStep.1 ≠ .executed op)
    (hreport : Continuation.ofStop (some vm.microStep.1) = Isa.Stop.report (Isa.step s).1)
    (h : Represents vm.microStep.2 (Isa.step s).2)
    (harch : vm.microStep.2.arch = { (Isa.step s).2 with pc := s.pc + 1 })

/-- The microcode goes through the documented machine step by step. -/
theorem Represents.advances {vm : MarieVMCore D} {s : Isa.State D} (h : Represents vm s) :
    Advances vm s := by
  rcases hs : vm.microStep with ⟨out, vm'⟩
  have hmicro : vm.microStep.1 = out ∧ vm.microStep.2 = vm' := by
    rw [hs]
    exact ⟨rfl, rfl⟩
  obtain ⟨hout, hvm'⟩ := hmicro
  by_cases hx : ∃ op, out = .executed op
  · obtain ⟨op, rfl⟩ := hx
    have hexec : vm.microStep = (.executed op, vm.microStep.2) := by rw [hs]
    cases h with
    | @underway i b h hs' =>
      obtain ⟨-, hnext⟩ := h.executed hs
      rw [← hvm'] at hnext
      split at hnext
      · exact .inside hexec (by omega) (.underway hnext.2 hs')
      · obtain ⟨hz, c, hc, hd⟩ := hnext
        obtain ⟨hreport, hstate, -⟩ :=
          perform_documented (fetched_begin h.fetched) (begin_address h.boundary)
        rw [hc, begin_arch, hs'] at hreport hstate
        refine .done hexec hz ?_ ((arch_of_datapath hd).symm.trans (hstate rfl))
        cases hstop : (Isa.step s).1 with
        | none => rfl
        | some stop =>
          rw [hstop] at hreport
          cases stop <;> cases hreport
    | stuck h hs' =>
      obtain ⟨hz, hnext⟩ := h.executed hs
      rw [← hvm'] at hz hnext
      exact .inside hexec hz (.stuck hnext hs')
  · have hstop : ∀ op, out ≠ .executed op := fun op hop => hx ⟨op, hop⟩
    rw [← hout] at hstop
    have hpair : vm.microStep = (vm.microStep.1, vm.microStep.2) := rfl
    cases h with
    | @underway i b h hs' =>
      obtain ⟨hreport, hnext, harch⟩ := h.stops hpair hstop
      rw [hs'] at hreport hnext harch
      have hpc : b.registers.pc = s.pc := congrArg Isa.State.pc hs'
      rw [hpc] at harch
      exact .stopped hstop hreport hnext harch
    | @stuck b h hs' =>
      obtain ⟨hfault, hsame, hfour⟩ := h.stops hpair hstop
      have hundecodable : Instruction.decode (s.memory s.pc) = none := by
        rw [← hs']
        exact h.undecodable
      have hstep := Isa.step_undecodable hundecodable
      refine .stopped hstop ?_ ?_ ?_
      · rw [hstep, hfault, ← hs']
        rfl
      · rw [hstep, hsame]
        exact .stuck h hs'
      · have hcounter := h.counter
        rw [if_pos hfour] at hcounter
        rw [hstep, hsame, ← hs']
        simp only [MarieVMCore.arch, h.memory, hcounter, h.ac, h.device]

/-- A step is one instruction of the documented machine. -/
theorem Represents.step {vm : MarieVMCore D} {s : Isa.State D} (h : Represents vm s) :
    vm.step.1 = Isa.Stop.report (Isa.step s).1 ∧ Represents vm.step.2 (Isa.step s).2 ∧
      if (Isa.step s).1 = none then vm.step.2.microPc = 0 ∧ vm.step.2.arch = (Isa.step s).2
      else vm.step.2.arch = { (Isa.step s).2 with pc := s.pc + 1 } := by
  induction hk : 10 - vm.microPc using Nat.strong_induction_on generalizing vm with
  | _ k ih =>
    cases h.advances with
    | inside hs hz hinside =>
      obtain ⟨hpc, hten⟩ := microStep_microPc hs hz
      rw [step_inner hs hz]
      exact ih _ (by omega) hinside rfl
    | done hs hz hnone harch =>
      rw [step_boundary hs hz, hnone, if_pos rfl, ← harch]
      exact ⟨rfl, .boundary hz, hz, rfl⟩
    | stopped hx hreport hstopped harch =>
      have hsome : (Isa.step s).1 ≠ none := by
        intro hnone
        rw [hnone] at hreport
        rcases hs : vm.microStep.1 with op | _ | _ | fault | _
        · exact hx op hs
        all_goals
          rw [hs] at hreport
          cases hreport
      rw [step_stop rfl hx, if_neg hsome]
      exact ⟨hreport, hstopped, harch⟩

/-- The machine, instruction by instruction. -/
def turn (vm : MarieVMCore D) : (Continuation × MarieVMCore D) ⊕ MarieVMCore D :=
  match vm.step with
  | (.continue_, vm) => .inr vm
  | ended => .inl ended

/-- The machine stopped as the documented one did, but its program counter has moved on. -/
def Stopped (ended : Continuation × MarieVMCore D) (stopped : Isa.Stop × Isa.State D) : Prop :=
  ended.1 = Isa.Stop.report (some stopped.1) ∧ Represents ended.2 stopped.2 ∧
    ended.2.arch = { stopped.2 with pc := stopped.2.pc + 1 }

theorem turn_goes {vm vm' : MarieVMCore D} : turn vm = .inr vm' ↔ vm.step = (.continue_, vm') := by
  unfold turn
  rcases vm.step with ⟨_ | _ | _ | fault | _, vm''⟩ <;> simp

theorem turn_stops {vm vm' : MarieVMCore D} {result : Continuation} :
    turn vm = .inl (result, vm') ↔ vm.step = (result, vm') ∧ result ≠ .continue_ := by
  unfold turn
  rcases vm.step with ⟨_ | _ | _ | fault | _, vm''⟩
  case continue_ =>
    simp only [reduceCtorEq, Prod.mk.injEq, false_iff, not_and, not_not]
    rintro ⟨rfl, -⟩
    rfl
  all_goals
    simp only [Sum.inl.injEq, Prod.mk.injEq]
    refine ⟨fun h => ⟨h, ?_⟩, fun h => h.1⟩
    rw [← h.1]
    exact nofun

/-- An instruction that is done leaves the machine between two. -/
theorem Represents.goes {vm : MarieVMCore D} {s s' : Isa.State D} (h : Represents vm s)
    (hs : Isa.turn s = .inr s') : ∃ vm', turn vm = .inr vm' ∧ vm'.microPc = 0 ∧ vm'.arch = s' := by
  obtain ⟨hreport, -, hseen⟩ := h.step
  rw [Isa.turn_goes.mp hs] at hreport hseen
  exact ⟨vm.step.2, turn_goes.mpr (Prod.ext hreport rfl), hseen⟩

theorem Represents.ends {vm : MarieVMCore D} {s s' : Isa.State D} {stop : Isa.Stop}
    (h : Represents vm s) (hs : Isa.turn s = .inl (stop, s')) :
    ∃ ended, turn vm = .inl ended ∧ Stopped ended (stop, s') := by
  obtain ⟨hreport, hnext, hseen⟩ := h.step
  have hstep := Isa.turn_stops.mp hs
  have hframe := Isa.step_frame (s := s)
  rw [hstep] at hreport hnext hseen hframe
  rw [if_neg nofun] at hseen
  have hsame := hframe nofun
  have hpc : s'.pc = s.pc := by
    have hpc := congrArg Isa.State.pc hsame
    exact hpc
  refine ⟨vm.step, turn_stops.mpr ⟨rfl, ?_⟩, hreport, hnext, ?_⟩
  · rw [hreport]
    cases stop <;> exact nofun
  · rw [hpc]
    exact hseen

/-- Instructions are the same turns of both machines. -/
theorem turn_simulates :
    Simulates turn Isa.turn (fun (vm : MarieVMCore D) s => Represents vm s) Stopped where
  goes h hs := by
    obtain ⟨vm', hturn, hz, rfl⟩ := h.goes hs
    exact ⟨vm', hturn, .boundary hz⟩
  ends h hs := h.ends hs

end Device

end MarieVMCore

end MarieRs.Vm
