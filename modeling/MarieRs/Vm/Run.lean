import MarieRs.Vm.Step

namespace MarieRs.Vm

inductive SuspendReason where
  | breakpoint (address : MemoryAddress)
  | awaitingInput
  | stepLimit
  deriving DecidableEq, Repr

def SuspendReason.display : SuspendReason → String
  | .breakpoint address => "breakpoint at " ++ address.display
  | .awaitingInput => "waiting for input"
  | .stepLimit => "step limit reached"

/-- The outcome owns the machine, as in the source. -/
inductive RunOutcome (D : Type) where
  | suspended (vm : MarieVMCore D) (reason : SuspendReason)
  | terminated (vm : MarieVMCore D)
  | faulted (vm : MarieVMCore D) (fault : Fault)
  | panicked (vm : MarieVMCore D)

namespace MarieVMCore

variable {D : Type}

/-- Breakpoints only make sense between instructions. -/
def atBreakpoint (vm : MarieVMCore D) : Bool :=
  vm.microPc == 0 && vm.breakpoints.contains vm.registers.pc

section Device
variable [MarieVmIODevice D]

/-- One pass through the loop of `run_inner`: the outcome it returns, or the
machine it goes round with. The first instruction of a call is exempt from
breakpoints. -/
def runPass (budget : Option Nat) (executed : Nat) (vm : MarieVMCore D) :
    RunOutcome D ⊕ MarieVMCore D :=
  if budget.any (fun limit => decide (executed ≥ limit)) then .inl (.suspended vm .stepLimit)
  else if executed > 0 ∧ vm.atBreakpoint then
    .inl (.suspended vm (.breakpoint vm.registers.pc))
  else
    match vm.step with
    | (.continue_, vm) => .inr vm
    | (.halted, vm) => .inl (.terminated vm)
    | (.awaitingInput, vm) => .inl (.suspended vm .awaitingInput)
    | (.faulted fault, vm) => .inl (.faulted vm fault)
    | (.panicked, vm) => .inl (.panicked vm)

theorem runPass_continue {limit executed : Nat} {vm vm' : MarieVMCore D}
    (h : runPass (some limit) executed vm = .inr vm') : executed < limit := by
  unfold runPass at h
  split at h
  · cases h
  · rename_i hlimit
    simpa using hlimit

/-- The loop of `run_inner` under a budget, which bounds its passes. -/
def runInner (limit executed : Nat) (vm : MarieVMCore D) : RunOutcome D :=
  match _h : runPass (some limit) executed vm with
  | .inl outcome => outcome
  | .inr vm' => runInner limit (executed + 1) vm'
termination_by limit - executed
decreasing_by
  have := runPass_continue _h
  omega

def runBounded (vm : MarieVMCore D) (maxSteps : Nat) : RunOutcome D := runInner maxSteps 0 vm

theorem runInner_eq (limit executed : Nat) (vm : MarieVMCore D) :
    runInner limit executed vm =
      match runPass (some limit) executed vm with
      | .inl outcome => outcome
      | .inr vm' => runInner limit (executed + 1) vm' := by
  rw [runInner]
  split <;> simp_all

/-- `continue` in the debugger, interrupted after `slices` slices at the latest. -/
def resume (slice : Nat) : Nat → MarieVMCore D → RunOutcome D
  | 0, vm => .suspended vm .stepLimit
  | slices + 1, vm =>
    match runBounded vm slice with
    | .suspended vm .stepLimit => resume slice slices vm
    | outcome => outcome

end Device

end MarieVMCore

end MarieRs.Vm
