import MarieRs.Vm.Run

namespace MarieRs.Vm

/-- The states of the source's `MarieVM<IO, S>`. -/
inductive MarieVmState where
  | ready | running | stepping | terminated
  deriving DecidableEq, Repr

/-- The machine that an outcome hands back. -/
def RunOutcome.machine {D : Type} : RunOutcome D → MarieVMCore D
  | .suspended vm _ => vm
  | .terminated vm => vm
  | .faulted vm _ => vm
  | .panicked vm => vm

def RunOutcome.state {D : Type} : RunOutcome D → MarieVmState
  | .suspended _ _ => .running
  | _ => .terminated

def Continuation.state : Continuation → MarieVmState
  | .continue_ | .awaitingInput => .stepping
  | _ => .terminated

def MicroOutcome.state : MicroOutcome → MarieVmState
  | .executed _ | .awaitingInput => .stepping
  | _ => .terminated

namespace MarieVMCore

variable {D : Type}

def reset (vm : MarieVMCore D) : MarieVMCore D :=
  rewindTo { vm with registers := {}, memory := fun _ => 0 } MemoryAddress.zero

def flashMemory (vm : MarieVMCore D) (memory : MemoryImage) : MarieVMCore D := { vm with memory }

def flashProgram (vm : MarieVMCore D) (programMemory : MemoryImage) (entryPoint : MemoryAddress) :
    MarieVMCore D :=
  (vm.flashMemory programMemory).rewindTo entryPoint

def setHistoryLimit (vm : MarieVMCore D) (limit : Nat) : MarieVMCore D :=
  { vm with history := vm.history.setLimit limit }

def clearHistory (vm : MarieVMCore D) : MarieVMCore D := { vm with history := vm.history.clear }

section Device
variable [MarieVmIODevice D]

/-- A step back takes the last entry off the journal and restores the control state in it,
or it leaves all but the device alone. -/
theorem microStepBack_cases (vm : MarieVMCore D) :
    (∃ entry, vm.history.last = some entry ∧ vm.microStepBack.1 = .ok entry.microOp ∧
      vm.microStepBack.2.control = entry.control ∧
      vm.microStepBack.2.history = vm.history.pop) ∨
    ∃ error, vm.microStepBack.1 = .error error ∧
      vm.microStepBack.2 = { vm with ioDevice := vm.microStepBack.2.ioDevice } := by
  simp only [microStepBack]
  cases hlast : vm.history.last with
  | none => exact .inr ⟨_, rfl, rfl⟩
  | some entry =>
    obtain ⟨control, op, effect⟩ := entry
    cases effect with
    | none => exact .inl ⟨_, rfl, rfl, rfl, rfl⟩
    | register register previous => exact .inl ⟨_, rfl, rfl, rfl, rfl⟩
    | memory address previous =>
      refine .inl ⟨_, rfl, rfl, rfl, ?_⟩
      simp only [notifyDisplay_eq]
    | inputRead previous value =>
      simp only
      split
      · exact .inr ⟨_, rfl, rfl⟩
      · exact .inl ⟨_, rfl, rfl, rfl, rfl⟩
    | outputWritten value =>
      simp only
      split
      · exact .inr ⟨_, rfl, rfl⟩
      · exact .inl ⟨_, rfl, rfl, rfl, rfl⟩

theorem microStepBack_shrinks {vm vm' : MarieVMCore D} {op : MicroOp}
    (h : vm.microStepBack = (.ok op, vm')) :
    vm'.history.entries.length < vm.history.entries.length := by
  rcases vm.microStepBack_cases with ⟨entry, hlast, -, -, hpop⟩ | ⟨error, herror, -⟩
  · rw [h] at hpop
    have hne : vm.history.entries ≠ [] := by
      intro hnil
      rw [History.last, hnil] at hlast
      cases hlast
    have hlength := List.length_pos_iff.mpr hne
    have hentries : vm'.history.entries = vm.history.entries.dropLast :=
      congrArg History.entries hpop
    rw [hentries, List.length_dropLast]
    omega
  · rw [h] at herror
    cases herror

/-- Reverses operations until the machine is between instructions, after `undone` others. -/
def stepBackFrom (undone : Nat) (vm : MarieVMCore D) :
    Except StepBackError Nat × MarieVMCore D :=
  match _h : vm.microStepBack with
  | (.error error, vm') => (.error error, vm')
  | (.ok _, vm') =>
    if vm'.microPc = 0 then (.ok (undone + 1), vm') else stepBackFrom (undone + 1) vm'
termination_by vm.history.entries.length
decreasing_by exact microStepBack_shrinks _h

theorem stepBackFrom_error {undone : Nat} {vm vm' : MarieVMCore D} {error : StepBackError}
    (h : vm.microStepBack = (.error error, vm')) :
    stepBackFrom undone vm = (.error error, vm') := by
  rw [stepBackFrom]
  split <;> simp_all

theorem stepBackFrom_boundary {undone : Nat} {vm vm' : MarieVMCore D} {op : MicroOp}
    (h : vm.microStepBack = (.ok op, vm')) (hz : vm'.microPc = 0) :
    stepBackFrom undone vm = (.ok (undone + 1), vm') := by
  rw [stepBackFrom]
  split <;> simp_all

theorem stepBackFrom_inner {undone : Nat} {vm vm' : MarieVMCore D} {op : MicroOp}
    (h : vm.microStepBack = (.ok op, vm')) (hz : vm'.microPc ≠ 0) :
    stepBackFrom undone vm = stepBackFrom (undone + 1) vm' := by
  rw [stepBackFrom]
  split <;> simp_all

def stepBack (vm : MarieVMCore D) : Except StepBackError Nat × MarieVMCore D := stepBackFrom 0 vm

/-- The loop of `run_inner`, which need not end when there is no budget. -/
inductive RunInner (budget : Option Nat) : Nat → MarieVMCore D → RunOutcome D → Prop where
  | ends {executed : Nat} {vm : MarieVMCore D} {outcome : RunOutcome D}
    (h : runPass budget executed vm = .inl outcome) : RunInner budget executed vm outcome
  | goesOn {executed : Nat} {vm vm' : MarieVMCore D} {outcome : RunOutcome D}
    (h : runPass budget executed vm = .inr vm')
    (hrest : RunInner budget (executed + 1) vm' outcome) :
    RunInner budget executed vm outcome

/-- `run` and `run_bounded`. -/
abbrev Runs (budget : Option Nat) (vm : MarieVMCore D) (outcome : RunOutcome D) : Prop :=
  RunInner budget 0 vm outcome

/-- With a budget the loop ends, in what `run_bounded` returns. -/
theorem runInner_iff {limit executed : Nat} {vm : MarieVMCore D} {outcome : RunOutcome D} :
    RunInner (some limit) executed vm outcome ↔ runInner limit executed vm = outcome := by
  constructor
  · intro h
    induction h with
    | ends h => rw [runInner_eq, h]
    | goesOn h hrest ih =>
      rw [runInner_eq, h]
      exact ih
  · intro h
    induction hk : limit - executed generalizing executed vm with
    | zero =>
      rw [runInner_eq] at h
      split at h
      · rename_i hpass
        rw [← h]
        exact .ends hpass
      · rename_i hpass
        have hlt := runPass_continue hpass
        omega
    | succ k ih =>
      rw [runInner_eq] at h
      split at h
      · rename_i hpass
        rw [← h]
        exact .ends hpass
      · rename_i hpass
        exact .goesOn hpass (ih h (by omega))

theorem runs_bounded {maxSteps : Nat} {vm : MarieVMCore D} {outcome : RunOutcome D} :
    Runs (some maxSteps) vm outcome ↔ vm.runBounded maxSteps = outcome := runInner_iff

/-- What the calls that execute do to the machine. -/
inductive Executes : MarieVMCore D → MarieVMCore D → Prop where
  | run {budget : Option Nat} {vm : MarieVMCore D} {outcome : RunOutcome D}
    (h : Runs budget vm outcome) : Executes vm outcome.machine
  | step (vm : MarieVMCore D) : Executes vm vm.step.2
  | microStep (vm : MarieVMCore D) : Executes vm vm.microStep.2
  | stepBack (vm : MarieVMCore D) : Executes vm vm.stepBack.2
  | microStepBack (vm : MarieVMCore D) : Executes vm vm.microStepBack.2

/-- One call of the public interface, in a state that has it. The `_with_program` calls
are two of these. -/
inductive Call : MarieVmState → MarieVMCore D → MarieVmState → MarieVMCore D → Prop where
  | flashProgram (vm : MarieVMCore D) (programMemory : MemoryImage) (entryPoint : MemoryAddress) :
    Call .ready vm .ready (vm.flashProgram programMemory entryPoint)
  | flashMemory (vm : MarieVMCore D) (memory : MemoryImage) :
    Call .ready vm .ready (vm.flashMemory memory)
  | loadProgram {vm vm' : MarieVMCore D} {origin : MemoryAddress} {program : List Word}
    (h : vm.loadProgram origin program = .ok vm') : Call .ready vm .ready vm'
  | reset (vm : MarieVMCore D) : Call .ready vm .ready vm.reset
  | boot (vm : MarieVMCore D) : Call .ready vm .running vm
  | debug (vm : MarieVMCore D) : Call .ready vm .stepping vm
  | run {budget : Option Nat} {vm : MarieVMCore D} {outcome : RunOutcome D}
    (h : Runs budget vm outcome) : Call .running vm outcome.state outcome.machine
  | pause (vm : MarieVMCore D) : Call .running vm .stepping vm
  | step (vm : MarieVMCore D) : Call .stepping vm vm.step.1.state vm.step.2
  | microStep (vm : MarieVMCore D) : Call .stepping vm vm.microStep.1.state vm.microStep.2
  | microStepBack (vm : MarieVMCore D) : Call .stepping vm .stepping vm.microStepBack.2
  | stepBack (vm : MarieVMCore D) : Call .stepping vm .stepping vm.stepBack.2
  | resume (vm : MarieVMCore D) : Call .stepping vm .running vm
  | debugTerminated (vm : MarieVMCore D) : Call .terminated vm .stepping vm
  | resetTerminated (vm : MarieVMCore D) : Call .terminated vm .ready vm.reset
  | registersMut (state : MarieVmState) (vm : MarieVMCore D) (registers : Registers) :
    Call state vm state { vm with registers }
  | memoryMut (state : MarieVmState) (vm : MarieVMCore D) (memory : MemoryImage) :
    Call state vm state { vm with memory }
  | ioMut (state : MarieVmState) (vm : MarieVMCore D) (ioDevice : D) :
    Call state vm state { vm with ioDevice }
  | breakpointsMut (state : MarieVmState) (vm : MarieVMCore D) (breakpoints : BreakpointSet) :
    Call state vm state { vm with breakpoints }
  | setHistoryLimit (state : MarieVmState) (vm : MarieVMCore D) (limit : Nat) :
    Call state vm state (vm.setHistoryLimit limit)
  | clearHistory (state : MarieVmState) (vm : MarieVMCore D) :
    Call state vm state vm.clearHistory

/-- What any calls can make of a new machine. -/
inductive Reachable : MarieVmState → MarieVMCore D → Prop where
  | new (ioDevice : D) : Reachable .ready (.new ioDevice)
  | call {state state' : MarieVmState} {vm vm' : MarieVMCore D} (h : Reachable state vm)
    (hcall : Call state vm state' vm') : Reachable state' vm'

variable {P : MarieVMCore D → Prop}

theorem step_keeps (hmicro : ∀ vm, P vm → P vm.microStep.2) {vm : MarieVMCore D} (hvm : P vm) :
    P vm.step.2 := by
  induction hk : 10 - vm.microPc using Nat.strong_induction_on generalizing vm with
  | _ k ih =>
    have hnext := hmicro vm hvm
    rcases hs : vm.microStep with ⟨out, vm'⟩
    rw [hs] at hnext
    cases out with
    | executed op =>
      by_cases hz : vm'.microPc = 0
      · rw [step_boundary hs hz]
        exact hnext
      · obtain ⟨hpc, hten⟩ := microStep_microPc hs hz
        rw [step_inner hs hz]
        exact ih _ (by omega) hnext rfl
    | halted | awaitingInput | faulted fault | panicked =>
      rw [step_stop hs (by simp)]
      exact hnext

theorem runPass_keeps (hmicro : ∀ vm, P vm → P vm.microStep.2) {budget : Option Nat}
    {executed : Nat} {vm : MarieVMCore D} (hvm : P vm) :
    (∀ outcome, runPass budget executed vm = .inl outcome → P outcome.machine) ∧
      ∀ vm', runPass budget executed vm = .inr vm' → P vm' := by
  have hstep := step_keeps hmicro hvm
  rw [runPass]
  split
  · refine ⟨fun _ h => ?_, fun _ h => ?_⟩
    · cases h
      exact hvm
    · cases h
  · split
    · refine ⟨fun _ h => ?_, fun _ h => ?_⟩
      · cases h
        exact hvm
      · cases h
    · split
      all_goals
        rename_i hs
        rw [hs] at hstep
        refine ⟨fun _ h => ?_, fun _ h => ?_⟩
        all_goals
          cases h
          try exact hstep

theorem run_keeps (hmicro : ∀ vm, P vm → P vm.microStep.2) {budget : Option Nat}
    {executed : Nat} {vm : MarieVMCore D} {outcome : RunOutcome D}
    (h : RunInner budget executed vm outcome) (hvm : P vm) : P outcome.machine := by
  induction h with
  | ends h => exact (runPass_keeps hmicro hvm).1 _ h
  | goesOn h hrest ih => exact ih ((runPass_keeps hmicro hvm).2 _ h)

theorem stepBack_keeps (hback : ∀ vm, P vm → P vm.microStepBack.2) {undone : Nat}
    {vm : MarieVMCore D} (hvm : P vm) : P (stepBackFrom undone vm).2 := by
  induction hk : vm.history.entries.length using Nat.strong_induction_on generalizing undone vm with
  | _ k ih =>
    have hnext := hback vm hvm
    rw [stepBackFrom]
    split
    · rename_i hs
      rw [hs] at hnext
      exact hnext
    · rename_i vm' hs
      rw [hs] at hnext
      split
      · exact hnext
      · exact ih _ (hk ▸ microStepBack_shrinks hs) hnext rfl

/-- What a forward and a backward micro-step keep, everything that executes keeps. -/
theorem Executes.keeps (hmicro : ∀ vm, P vm → P vm.microStep.2)
    (hback : ∀ vm, P vm → P vm.microStepBack.2) {vm vm' : MarieVMCore D}
    (h : Executes vm vm') (hvm : P vm) : P vm' := by
  cases h with
  | run h => exact run_keeps hmicro h hvm
  | step => exact step_keeps hmicro hvm
  | microStep => exact hmicro vm hvm
  | stepBack => exact stepBack_keeps hback hvm
  | microStepBack => exact hback vm hvm

end Device

end MarieVMCore

end MarieRs.Vm
