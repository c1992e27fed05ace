import MarieRs.Vm.Api

namespace MarieRs.Vm

/-- Any device behind a schedule: the delivery that comes next is only made after
`schedule delivered` polls that are pending. -/
structure Stalling (D : Type) where
  device : D
  schedule : Nat → Nat
  delivered : Nat
  stalled : Nat

namespace Stalling

variable {D : Type}

/-- The pending polls that are left before the next delivery. -/
def left (io : Stalling D) : Nat := io.schedule io.delivered - io.stalled

instance [MarieVmIODevice D] : MarieVmIODevice (Stalling D) where
  pollInput io :=
    if 0 < io.left then (.pending, { io with stalled := io.stalled + 1 })
    else
      let (answer, device) := MarieVmIODevice.pollInput io.device
      (answer, { io with device, delivered := io.delivered + 1, stalled := 0 })
  output io value :=
    let (answer, device) := MarieVmIODevice.output io.device value
    (answer, { io with device })
  unreadInput io value :=
    let (accepted, device) := MarieVmIODevice.unreadInput io.device value
    (accepted, { io with device })
  unwriteOutput io value :=
    let (accepted, device) := MarieVmIODevice.unwriteOutput io.device value
    (accepted, { io with device })
  displayWrite io index pixel :=
    { io with device := MarieVmIODevice.displayWrite io.device index pixel }

end Stalling

/-- A device that never keeps a program waiting. -/
def AlwaysReady (D : Type) [MarieVmIODevice D] : Prop :=
  ∀ device after : D, MarieVmIODevice.pollInput device ≠ (.pending, after)

namespace MarieVMCore

variable {D : Type}

/-- The same machine, on the device behind the schedule. -/
def unstalled (vm : MarieVMCore (Stalling D)) : MarieVMCore D where
  registers := vm.registers
  memory := vm.memory
  ioDevice := vm.ioDevice.device
  breakpoints := vm.breakpoints
  history := vm.history
  microPc := vm.microPc
  decoded := vm.decoded
  instructionAddress := vm.instructionAddress
  comparison := vm.comparison

theorem begin_unstalled (vm : MarieVMCore (Stalling D)) :
    vm.beginInstruction.unstalled = vm.unstalled.beginInstruction := by
  by_cases hz : vm.microPc = 0
  · simp [beginInstruction, unstalled, hz]
  · simp [beginInstruction, unstalled, hz]

end MarieVMCore

def RunOutcome.unstalled {D : Type} : RunOutcome (Stalling D) → RunOutcome D
  | .suspended vm reason => .suspended vm.unstalled reason
  | .terminated vm => .terminated vm.unstalled
  | .faulted vm fault => .faulted vm.unstalled fault
  | .panicked vm => .panicked vm.unstalled

def RunOutcome.Awaiting {D : Type} (outcome : RunOutcome D) : Prop :=
  ∃ vm, outcome = .suspended vm .awaitingInput

namespace MarieVMCore

variable {D : Type} [MarieVmIODevice D]

theorem displayed_unstalled (io : Stalling D) (address : MemoryAddress) (previous current : Word) :
    (displayed io address previous current).device =
      displayed io.device address previous current := by
  unfold displayed
  split
  · rfl
  · split
    · rfl
    · rfl

/-- An operation stalled, and only the schedule has moved on. -/
def Stalled (vm vm' : MarieVMCore (Stalling D)) (result : Except MicroOutcome Effect) : Prop :=
  result = .error .awaitingInput ∧ vm'.unstalled = vm.unstalled ∧ vm'.microPc = vm.microPc ∧
    vm'.ioDevice.left < vm.ioDevice.left

theorem readInput_unstalled (hready : AlwaysReady D) {vm vm' : MarieVMCore (Stalling D)}
    {result : Except MicroOutcome Effect} (h : vm.executeMicroOp .readInput = (result, vm')) :
    Stalled vm vm' result ∨ (result ≠ .error .awaitingInput ∧
      vm.unstalled.executeMicroOp .readInput = (result, vm'.unstalled)) := by
  simp only [executeMicroOp, MarieVmIODevice.pollInput] at h
  by_cases hleft : 0 < vm.ioDevice.left
  · left
    rw [if_pos hleft] at h
    cases h
    refine ⟨rfl, rfl, rfl, ?_⟩
    simp only [Stalling.left] at hleft ⊢
    omega
  · right
    rw [if_neg hleft] at h
    rcases hpoll : MarieVmIODevice.pollInput vm.ioDevice.device with ⟨answer, device⟩
    have hinner : MarieVmIODevice.pollInput vm.unstalled.ioDevice = (answer, device) := hpoll
    rw [hpoll] at h
    cases answer with
    | pending => exact absurd hpoll (hready _ _)
    | ready result =>
      cases result with
      | error error =>
        cases h
        simp only [executeMicroOp, hinner]
        exact ⟨by simp, rfl⟩
      | ok value =>
        cases h
        simp only [executeMicroOp, hinner]
        exact ⟨by simp, rfl⟩

theorem writeOutput_unstalled {vm vm' : MarieVMCore (Stalling D)}
    {result : Except MicroOutcome Effect} (h : vm.executeMicroOp .writeOutput = (result, vm')) :
    result ≠ .error .awaitingInput ∧
      vm.unstalled.executeMicroOp .writeOutput = (result, vm'.unstalled) := by
  simp only [executeMicroOp, MarieVmIODevice.output] at h
  rcases hout : MarieVmIODevice.output vm.ioDevice.device vm.registers.output with
    ⟨answer, device⟩
  have hinner : MarieVmIODevice.output vm.unstalled.ioDevice vm.unstalled.registers.output =
    (answer, device) := hout
  rw [hout] at h
  cases answer with
  | error error =>
    cases h
    simp only [executeMicroOp, hinner]
    exact ⟨by simp, rfl⟩
  | ok value =>
    cases h
    simp only [executeMicroOp, hinner]
    exact ⟨by simp, rfl⟩

theorem execute_not_awaiting {E : Type} [MarieVmIODevice E] (vm : MarieVMCore E) {op : MicroOp}
    (hop : op.usesDevice = false) : (vm.executeMicroOp op).1 ≠ .error .awaitingInput := by
  cases op <;> simp only [executeMicroOp, executeMicroOp.done]
  case readInput | writeOutput | writeMemory => cases hop
  all_goals
    repeat' split
    all_goals simp

theorem execute_ready {E : Type} [MarieVmIODevice E] (hready : AlwaysReady E)
    (vm : MarieVMCore E) (op : MicroOp) : (vm.executeMicroOp op).1 ≠ .error .awaitingInput := by
  cases huses : op.usesDevice with
  | false => exact vm.execute_not_awaiting huses
  | true =>
    cases op with
    | readInput =>
      rw [executeMicroOp]
      split
      · rename_i hpoll
        exact absurd hpoll (hready _ _)
      · simp
      · simp
    | writeOutput =>
      rw [executeMicroOp]
      split <;> simp
    | writeMemory => simp [executeMicroOp, executeMicroOp.done]
    | decode | compare | skipIfComparison | halt | transfer | readMemory | incrementPc | add
    | subtract | loadImmediate => cases huses

/-- On such a device no micro-step waits for input. -/
theorem microStep_ready {E : Type} [MarieVmIODevice E] (hready : AlwaysReady E)
    (vm : MarieVMCore E) : vm.microStep.1 ≠ .awaitingInput := by
  rw [microStep]
  split
  · simp
  · rename_i op hop
    have hexecute := execute_ready hready vm.beginInstruction op
    split
    · simp
    · rename_i he
      rw [he] at hexecute
      intro hawaiting
      exact hexecute (congrArg Except.error hawaiting)

/-- An operation either stalls, or does what it does without a schedule. -/
theorem execute_unstalled (hready : AlwaysReady D) {vm vm' : MarieVMCore (Stalling D)}
    {op : MicroOp} {result : Except MicroOutcome Effect}
    (h : vm.executeMicroOp op = (result, vm')) :
    Stalled vm vm' result ∨ (result ≠ .error .awaitingInput ∧
      vm.unstalled.executeMicroOp op = (result, vm'.unstalled)) := by
  cases huses : op.usesDevice with
  | false =>
    right
    obtain ⟨hdevice, hexecute⟩ := vm.execute_onto vm.ioDevice.device huses
    have hawaiting := vm.execute_not_awaiting huses
    rw [h] at hdevice hexecute hawaiting
    have hsame : vm'.unstalled = vm'.onto vm.ioDevice.device := by
      rw [← hdevice]
      rfl
    rw [hsame]
    exact ⟨hawaiting, hexecute⟩
  | true =>
    cases op with
    | readInput => exact readInput_unstalled hready h
    | writeOutput => exact .inr (writeOutput_unstalled h)
    | writeMemory =>
      right
      simp only [executeMicroOp, executeMicroOp.done, writeMemory_eq] at h ⊢
      cases h
      simp [unstalled, displayed_unstalled]
    | decode | compare | skipIfComparison | halt | transfer | readMemory | incrementPc | add
    | subtract | loadImmediate => cases huses

/-- The same for a micro-step: it stalls where it is, or does what it does without a
schedule. -/
theorem microStep_unstalled (hready : AlwaysReady D) (vm : MarieVMCore (Stalling D)) :
    (vm.microStep.1 = .awaitingInput ∧ vm.microStep.2.unstalled = vm.unstalled ∧
      vm.microStep.2.ioDevice.left < vm.ioDevice.left) ∨
    (vm.microStep.1 ≠ .awaitingInput ∧
      vm.unstalled.microStep = (vm.microStep.1, vm.microStep.2.unstalled)) := by
  have hcurrent : vm.unstalled.currentMicroOp = vm.currentMicroOp := rfl
  cases hop : vm.currentMicroOp with
  | none =>
    right
    simp only [microStep, begin_currentMicroOp, hcurrent, hop, begin_unstalled]
    exact ⟨by simp, trivial⟩
  | some op =>
    rw [hop] at hcurrent
    rcases he : vm.beginInstruction.executeMicroOp op with ⟨result, core⟩
    rcases execute_unstalled hready he with ⟨rfl, hsame, -, hleft⟩ | ⟨hne, hinner⟩
    · left
      rw [microStep_of_error hop he]
      rw [begin_unstalled] at hsame
      rw [begin_frame] at hleft
      refine ⟨rfl, ?_, hleft⟩
      change core.unstalled.restore vm.unstalled.control = _
      rw [hsame, begin_frame]
      rfl
    · right
      rw [begin_unstalled] at hinner
      cases result with
      | ok effect =>
        rw [microStep_of_execute hop he, microStep_of_execute hcurrent hinner]
        exact ⟨by simp, rfl⟩
      | error stop =>
        rw [microStep_of_error hop he, microStep_of_error hcurrent hinner]
        exact ⟨fun hawaiting => hne (congrArg Except.error hawaiting), rfl⟩

/-- A step that stalls has done part of what the step does without a schedule. -/
theorem step_unstalled (hready : AlwaysReady D) (vm : MarieVMCore (Stalling D)) :
    (vm.step.1 = .awaitingInput → vm.unstalled.step = vm.step.2.unstalled.step) ∧
    (vm.step.1 ≠ .awaitingInput → vm.unstalled.step = (vm.step.1, vm.step.2.unstalled)) := by
  induction hk : 10 - vm.microPc using Nat.strong_induction_on generalizing vm with
  | _ k ih =>
    have hmicro := microStep_unstalled hready vm
    rcases hs : vm.microStep with ⟨out, vm'⟩
    rw [hs] at hmicro
    rcases hmicro with ⟨rfl, hsame, -⟩ | ⟨hne, hinner⟩
    · rw [step_stop hs (by simp)]
      refine ⟨fun _ => ?_, fun hawaiting => absurd rfl hawaiting⟩
      rw [hsame]
    · cases out with
      | executed op =>
        by_cases hz : vm'.microPc = 0
        · rw [step_boundary hs hz, step_boundary hinner hz]
          refine ⟨fun h => ?_, fun _ => rfl⟩
          cases h
        · obtain ⟨hpc, hten⟩ := microStep_microPc hs hz
          rw [step_inner hs hz, step_inner hinner hz]
          exact ih _ (by omega) vm' rfl
      | halted | faulted fault | panicked =>
        rw [step_stop hs (by simp), step_stop hinner (by simp)]
        refine ⟨fun h => ?_, fun _ => rfl⟩
        cases h
      | awaitingInput => exact absurd rfl hne

/-- Steps that are taken again as long as they stall. -/
inductive StepThrough : MarieVMCore D → Continuation → MarieVMCore D → Prop where
  | ends {vm : MarieVMCore D} (h : vm.step.1 ≠ .awaitingInput) :
    StepThrough vm vm.step.1 vm.step.2
  | awaiting {vm vm' : MarieVMCore D} {result : Continuation} (h : vm.step.1 = .awaitingInput)
    (hrest : StepThrough vm.step.2 result vm') : StepThrough vm result vm'

theorem StepThrough.inside {vm next vm' : MarieVMCore D} {result : Continuation}
    (hsame : vm.step = next.step) (h : StepThrough next result vm') :
    StepThrough vm result vm' := by
  cases h with
  | ends h =>
    rw [← hsame] at h ⊢
    exact .ends h
  | awaiting h hrest =>
    rw [← hsame] at h hrest
    exact .awaiting h hrest

/-- Every schedule lets a step through in the end. -/
theorem stepThrough_exists (hready : AlwaysReady D) (vm : MarieVMCore (Stalling D)) :
    ∃ result vm', StepThrough vm result vm' := by
  induction hk : 10 - vm.microPc using Nat.strong_induction_on generalizing vm with
  | _ k ih =>
    induction hl : vm.ioDevice.left using Nat.strong_induction_on generalizing vm with
    | _ l ihl =>
      have hmicro := microStep_unstalled hready vm
      rcases hs : vm.microStep with ⟨out, vm'⟩
      rw [hs] at hmicro
      cases out with
      | executed op =>
        by_cases hz : vm'.microPc = 0
        · refine ⟨_, _, .ends ?_⟩
          rw [step_boundary hs hz]
          simp
        · obtain ⟨hpc, hten⟩ := microStep_microPc hs hz
          obtain ⟨result, after, hthrough⟩ := ih _ (by omega) vm' rfl
          exact ⟨result, after, hthrough.inside (step_inner hs hz)⟩
      | halted | faulted fault | panicked =>
        refine ⟨_, _, .ends ?_⟩
        rw [step_stop hs (by simp)]
        exact fun h => by cases h
      | awaitingInput =>
        obtain ⟨-, hsame, hleft⟩ := hmicro.resolve_right fun h => h.1 rfl
        have hpc : vm'.microPc = vm.microPc := congrArg (fun m : MarieVMCore D => m.microPc) hsame
        obtain ⟨result, after, hthrough⟩ := ihl _ (hl ▸ hleft) vm' (by rw [hpc]; exact hk) rfl
        refine ⟨result, after, .awaiting ?_ ?_⟩
        · rw [step_stop hs (by simp)]
          rfl
        · rw [step_stop hs (by simp)]
          exact hthrough

/-- Once an instruction of the call is done, how many does not matter without a budget. -/
theorem runPass_executed (executed other : Nat) (vm : MarieVMCore D) :
    runPass none (executed + 1) vm = runPass none (other + 1) vm := by
  simp [runPass]

theorem RunInner.executed {executed other : Nat} {vm : MarieVMCore D} {outcome : RunOutcome D}
    (h : RunInner none (executed + 1) vm outcome) : RunInner none (other + 1) vm outcome := by
  generalize hn : executed + 1 = n at h
  induction h generalizing executed other with
  | ends h =>
    subst hn
    rw [runPass_executed executed other] at h
    exact .ends h
  | goesOn h hrest ih =>
    subst hn
    rw [runPass_executed executed other] at h
    exact .goesOn h (ih rfl)

/-- What a pass of a run makes of its step, if no breakpoint suspends it. -/
def passed (result : Continuation × MarieVMCore D) : RunOutcome D ⊕ MarieVMCore D :=
  match result with
  | (.continue_, vm) => .inr vm
  | (.halted, vm) => .inl (.terminated vm)
  | (.awaitingInput, vm) => .inl (.suspended vm .awaitingInput)
  | (.faulted fault, vm) => .inl (.faulted vm fault)
  | (.panicked, vm) => .inl (.panicked vm)

theorem runPass_none (executed : Nat) (vm : MarieVMCore D) :
    runPass none executed vm =
      if executed > 0 ∧ vm.atBreakpoint then .inl (.suspended vm (.breakpoint vm.registers.pc))
      else passed vm.step := by
  simp only [runPass, Option.any_none, Bool.false_eq_true, if_false]
  rfl

/-- A pass that stalls is, without a schedule, the first pass of the next call. Any other
ends alike. -/
theorem runPass_unstalled (hready : AlwaysReady D) (executed : Nat)
    (vm : MarieVMCore (Stalling D)) :
    (∃ vm', runPass none executed vm = .inl (.suspended vm' .awaitingInput) ∧
      runPass none executed vm.unstalled = runPass none 0 vm'.unstalled) ∨
    (∃ outcome, runPass none executed vm = .inl outcome ∧ ¬ outcome.Awaiting ∧
      runPass none executed vm.unstalled = .inl outcome.unstalled) ∨
    ∃ vm', runPass none executed vm = .inr vm' ∧
      runPass none executed vm.unstalled = .inr vm'.unstalled := by
  have hbreakpoint : vm.unstalled.atBreakpoint = vm.atBreakpoint := rfl
  simp only [runPass_none, hbreakpoint, gt_iff_lt, lt_irrefl, false_and, if_false]
  by_cases hat : 0 < executed ∧ vm.atBreakpoint
  · simp only [if_pos hat]
    refine .inr (.inl ⟨_, rfl, ?_, rfl⟩)
    rintro ⟨_, h⟩
    cases h
  · simp only [if_neg hat]
    obtain ⟨hstalls, hsame⟩ := step_unstalled hready vm
    rcases hs : vm.step with ⟨result, vm'⟩
    rw [hs] at hstalls hsame
    cases result with
    | continue_ =>
      rw [hsame (by simp)]
      exact .inr (.inr ⟨_, rfl, rfl⟩)
    | awaitingInput =>
      rw [hstalls rfl]
      exact .inl ⟨_, rfl, rfl⟩
    | halted | faulted fault | panicked =>
      rw [hsame (by simp)]
      refine .inr (.inl ⟨_, rfl, ?_, rfl⟩)
      rintro ⟨_, h⟩
      cases h

/-- The call of `run` and, as long as it was suspended for input, the calls that resume it. -/
inductive RunThrough : Nat → MarieVMCore D → RunOutcome D → Prop where
  | ends {executed : Nat} {vm : MarieVMCore D} {outcome : RunOutcome D}
    (h : RunInner none executed vm outcome) (hready : ¬ outcome.Awaiting) :
    RunThrough executed vm outcome
  | awaiting {executed : Nat} {vm vm' : MarieVMCore D} {outcome : RunOutcome D}
    (h : RunInner none executed vm (.suspended vm' .awaitingInput))
    (hrest : RunThrough 0 vm' outcome) : RunThrough executed vm outcome

theorem RunThrough.goesOn {executed : Nat} {vm vm' : MarieVMCore D} {outcome : RunOutcome D}
    (h : runPass none executed vm = .inr vm') (hrest : RunThrough (executed + 1) vm' outcome) :
    RunThrough executed vm outcome := by
  cases hrest with
  | ends hrun hready => exact .ends (.goesOn h hrun) hready
  | awaiting hrun hrest => exact .awaiting (.goesOn h hrun) hrest

/-- A call that stalls leaves the rest of what the call does without a schedule. -/
theorem RunInner.unstalled (hready : AlwaysReady D) {executed : Nat}
    {vm : MarieVMCore (Stalling D)} {outcome : RunOutcome (Stalling D)}
    (h : RunInner none executed vm outcome) :
    (¬ outcome.Awaiting → RunInner none executed vm.unstalled outcome.unstalled) ∧
    ∀ vm', outcome = .suspended vm' .awaitingInput → ∀ final,
      RunInner none 0 vm'.unstalled final → RunInner none executed vm.unstalled final := by
  induction h with
  | @ends executed vm outcome h =>
    rcases runPass_unstalled hready executed vm with ⟨vm', hpass, hsame⟩ |
      ⟨other, hpass, hnot, hsame⟩ | ⟨vm', hpass, -⟩
    · rw [h] at hpass
      cases hpass
      refine ⟨fun hnot => absurd ⟨_, rfl⟩ hnot, ?_⟩
      rintro _ ⟨⟩ final hfinal
      cases hfinal with
      | ends hend => exact .ends (hsame.trans hend)
      | goesOn hon hrest => exact .goesOn (hsame.trans hon) hrest.executed
    · rw [h] at hpass
      cases hpass
      exact ⟨fun _ => .ends hsame, fun vm' heq => absurd ⟨vm', heq⟩ hnot⟩
    · rw [h] at hpass
      cases hpass
  | @goesOn executed vm next outcome h hrest ih =>
    have hon : runPass none executed vm.unstalled = .inr next.unstalled := by
      rcases runPass_unstalled hready executed vm with ⟨vm', hpass, -⟩ |
        ⟨other, hpass, -⟩ | ⟨vm', hpass, hsame⟩
      · rw [h] at hpass
        cases hpass
      · rw [h] at hpass
        cases hpass
      · rw [h] at hpass
        cases hpass
        exact hsame
    exact ⟨fun hnot => .goesOn hon (ih.1 hnot),
      fun vm' heq final hfinal => .goesOn hon (ih.2 vm' heq final hfinal)⟩

theorem RunThrough.unstalled (hready : AlwaysReady D) {executed : Nat}
    {vm : MarieVMCore (Stalling D)} {outcome : RunOutcome (Stalling D)}
    (h : RunThrough executed vm outcome) :
    RunInner none executed vm.unstalled outcome.unstalled := by
  induction h with
  | ends h hnot => exact (h.unstalled hready).1 hnot
  | awaiting h hrest ih => exact (h.unstalled hready).2 _ rfl _ ih

theorem RunThrough.executed {executed other : Nat} {vm : MarieVMCore D} {outcome : RunOutcome D}
    (h : RunThrough (executed + 1) vm outcome) : RunThrough (other + 1) vm outcome := by
  cases h with
  | ends h hnot => exact .ends h.executed hnot
  | awaiting h hrest => exact .awaiting h.executed hrest

theorem StepThrough.unstalled (hready : AlwaysReady D) {vm vm' : MarieVMCore (Stalling D)}
    {result : Continuation} (h : StepThrough vm result vm') :
    result ≠ .awaitingInput ∧ vm.unstalled.step = (result, vm'.unstalled) := by
  induction h with
  | @ends vm h => exact ⟨h, (step_unstalled hready vm).2 h⟩
  | @awaiting vm vm' result h hrest ih => exact ⟨ih.1, ((step_unstalled hready vm).1 h).trans ih.2⟩

/-- A step that goes through is the pass of a call that goes through. -/
theorem StepThrough.passes {vm vm' : MarieVMCore D} {result : Continuation}
    (h : StepThrough vm result vm') {executed : Nat}
    (hat : ¬ (executed > 0 ∧ vm.atBreakpoint)) :
    (∀ outcome, passed (result, vm') = .inl outcome → RunThrough executed vm outcome) ∧
    ∀ next, passed (result, vm') = .inr next → ∀ outcome, RunThrough 1 next outcome →
      RunThrough executed vm outcome := by
  induction h generalizing executed with
  | @ends vm h =>
    have hpass := runPass_none executed vm
    rw [if_neg hat] at hpass
    refine ⟨fun outcome houtcome => ?_, fun next hnext outcome hrest => ?_⟩
    · refine .ends (.ends (hpass.trans houtcome)) ?_
      rintro ⟨suspended, rfl⟩
      rcases hs : vm.step with ⟨result, vm'⟩
      rw [hs] at houtcome h
      cases result with
      | awaitingInput => exact h rfl
      | continue_ | halted | faulted | panicked => cases houtcome
    · exact .goesOn (hpass.trans hnext) hrest.executed
  | @awaiting vm vm' result h hrest ih =>
    have hpass := runPass_none executed vm
    rw [if_neg hat] at hpass
    have hsuspended : passed vm.step = .inl (.suspended vm.step.2 .awaitingInput) := by
      rcases hs : vm.step with ⟨stalled, next⟩
      rw [hs] at h
      cases h
      rfl
    have hawaiting := RunInner.ends (hpass.trans hsuspended)
    obtain ⟨hends, hgoes⟩ := @ih 0 fun h => absurd h.1 (lt_irrefl 0)
    exact ⟨fun outcome houtcome => .awaiting hawaiting (hends outcome houtcome),
      fun next hnext outcome hthrough => .awaiting hawaiting (hgoes next hnext outcome hthrough)⟩

/-- What the call does without a schedule, the call does in the end. -/
theorem RunInner.through (hready : AlwaysReady D) {executed : Nat}
    {vm : MarieVMCore (Stalling D)} {outcome : RunOutcome D}
    (h : RunInner none executed vm.unstalled outcome) :
    ∃ stalled, RunThrough executed vm stalled ∧ stalled.unstalled = outcome := by
  generalize hu : vm.unstalled = u at h
  induction h generalizing vm with
  | @ends executed u outcome h =>
    subst hu
    have hbreakpoint : vm.unstalled.atBreakpoint = vm.atBreakpoint := rfl
    rw [runPass_none, hbreakpoint] at h
    by_cases hat : executed > 0 ∧ vm.atBreakpoint
    · rw [if_pos hat] at h
      cases h
      have hpass := runPass_none executed vm
      rw [if_pos hat] at hpass
      refine ⟨_, .ends (.ends hpass) ?_, rfl⟩
      rintro ⟨_, hawaiting⟩
      cases hawaiting
    · rw [if_neg hat] at h
      obtain ⟨result, vm', hthrough⟩ := stepThrough_exists hready vm
      obtain ⟨hne, hstep⟩ := hthrough.unstalled hready
      rw [hstep] at h
      obtain ⟨hends, -⟩ := hthrough.passes hat
      cases result with
      | continue_ => cases h
      | awaitingInput => exact absurd rfl hne
      | halted | faulted fault | panicked =>
        cases h
        exact ⟨_, hends _ rfl, rfl⟩
  | @goesOn executed u next outcome h hrest ih =>
    subst hu
    have hbreakpoint : vm.unstalled.atBreakpoint = vm.atBreakpoint := rfl
    rw [runPass_none, hbreakpoint] at h
    by_cases hat : executed > 0 ∧ vm.atBreakpoint
    · rw [if_pos hat] at h
      cases h
    · rw [if_neg hat] at h
      obtain ⟨result, vm', hthrough⟩ := stepThrough_exists hready vm
      obtain ⟨hne, hstep⟩ := hthrough.unstalled hready
      rw [hstep] at h
      obtain ⟨-, hgoes⟩ := hthrough.passes hat
      cases result with
      | continue_ =>
        cases h
        obtain ⟨stalled, hstalled, hsame⟩ := ih rfl
        exact ⟨stalled, hgoes _ rfl _ hstalled.executed, hsame⟩
      | awaitingInput => exact absurd rfl hne
      | halted | faulted fault | panicked => cases h

theorem RunInner.unique {budget : Option Nat} {executed : Nat} {vm : MarieVMCore D}
    {outcome other : RunOutcome D} (h : RunInner budget executed vm outcome)
    (hother : RunInner budget executed vm other) : outcome = other := by
  induction h with
  | ends h =>
    cases hother with
    | ends hend =>
      rw [h] at hend
      cases hend
      rfl
    | goesOn hon =>
      rw [h] at hon
      cases hon
  | goesOn h hrest ih =>
    cases hother with
    | ends hend =>
      rw [h] at hend
      cases hend
    | goesOn hon hrest =>
      rw [h] at hon
      cases hon
      exact ih hrest

theorem RunThrough.unique {executed : Nat} {vm : MarieVMCore D} {outcome other : RunOutcome D}
    (h : RunThrough executed vm outcome) (hother : RunThrough executed vm other) :
    outcome = other := by
  induction h with
  | ends h hnot =>
    cases hother with
    | ends hend => exact h.unique hend
    | awaiting hawaiting => exact absurd ⟨_, h.unique hawaiting⟩ hnot
  | awaiting h hrest ih =>
    cases hother with
    | ends hend hnot => exact absurd ⟨_, (h.unique hend).symm⟩ hnot
    | awaiting hawaiting hrest =>
      cases h.unique hawaiting
      exact ih hrest

/-- Calls one after the other, each on the machine that the call before it suspended. -/
inductive Calls (run : MarieVMCore D → RunOutcome D → Prop) :
    MarieVMCore D → List (RunOutcome D) → Prop where
  | none (vm : MarieVMCore D) : Calls run vm []
  | last {vm : MarieVMCore D} {outcome : RunOutcome D} (h : run vm outcome) : Calls run vm [outcome]
  | next {vm vm' : MarieVMCore D} {reason : SuspendReason} {outcomes : List (RunOutcome D)}
    (h : run vm (.suspended vm' reason)) (hrest : Calls run vm' outcomes) :
    Calls run vm (.suspended vm' reason :: outcomes)

/-- Stalls are invisible: the calls of `run`, each resumed as long as it is suspended for
input, have the outcomes that they have on the device without the schedule, with the same
machines but for the schedule; and these are determined. -/
theorem stalls_invisible (hready : AlwaysReady D) (vm : MarieVMCore (Stalling D)) :
    (∀ outcomes, Calls (Runs none) vm.unstalled outcomes ↔
      ∃ stalled, Calls (RunThrough 0) vm stalled ∧
        stalled.map RunOutcome.unstalled = outcomes) ∧
    ∀ outcome other, RunThrough 0 vm outcome → RunThrough 0 vm other → outcome = other := by
  refine ⟨fun outcomes => ⟨fun h => ?_, ?_⟩, fun outcome other => RunThrough.unique⟩
  · generalize hu : vm.unstalled = u at h
    induction h generalizing vm with
    | none => exact ⟨[], .none _, rfl⟩
    | last h =>
      subst hu
      obtain ⟨stalled, hthrough, hsame⟩ := RunInner.through hready h
      exact ⟨[stalled], .last hthrough, by rw [List.map_singleton, hsame]⟩
    | @next u u' reason outcomes h hrest ih =>
      subst hu
      obtain ⟨stalled, hthrough, hsame⟩ := RunInner.through hready h
      cases stalled with
      | suspended vm' reason' =>
        cases hsame
        obtain ⟨rest, hcalls, hrest⟩ := ih vm' rfl
        exact ⟨_, .next hthrough hcalls, by rw [List.map_cons, hrest]; rfl⟩
      | terminated | faulted | panicked => cases hsame
  · rintro ⟨stalled, hcalls, rfl⟩
    induction hcalls with
    | none => exact .none _
    | last h => exact .last (h.unstalled hready)
    | next h hrest ih => exact .next (h.unstalled hready) ih

theorem alwaysReady_vecIo : AlwaysReady VecIo := by
  rintro ⟨inputs, outputs⟩ after h
  cases inputs with
  | nil => cases h
  | cons => cases h

/-- `Input; Halt`, on a device whose delivery comes after three polls. -/
theorem stalls_invisible_input :
    let vm : MarieVMCore (Stalling VecIo) :=
      { MarieVMCore.new ⟨VecIo.new [7], fun _ => 3, 0, 0⟩ with
        memory := fun address => if address = 0 then 0x5000 else 0x7000 }
    vm.step.1 = .awaitingInput ∧
      ∃ stalled, Calls (RunThrough 0) vm stalled ∧
        stalled.map RunOutcome.unstalled = [.terminated vm.unstalled.step.2.step.2] := by
  intro vm
  have hfirst : vm.unstalled.step = stepWithin 10 vm.unstalled :=
    step_eq_stepWithin (by decide) (by omega)
  have hsecond : vm.unstalled.step.2.step = stepWithin 10 vm.unstalled.step.2 :=
    step_eq_stepWithin (by decide) (by omega)
  have hinput : vm.unstalled.step.1 = .continue_ := by
    rw [hfirst]
    decide +kernel
  have hhalt : vm.unstalled.step.2.step.1 = .halted := by
    rw [hsecond, hfirst]
    decide +kernel
  have hat : vm.unstalled.step.2.atBreakpoint = false := by
    rw [hfirst]
    decide +kernel
  have hpass : runPass none 0 vm.unstalled = .inr vm.unstalled.step.2 := by
    rw [runPass_none, if_neg (by simp)]
    rcases hs : vm.unstalled.step with ⟨result, next⟩
    rw [hs] at hinput
    cases hinput
    rfl
  have hend : runPass none 1 vm.unstalled.step.2 =
      .inl (.terminated vm.unstalled.step.2.step.2) := by
    rw [runPass_none, if_neg (by simp [hat])]
    rcases hs : vm.unstalled.step.2.step with ⟨result, next⟩
    rw [hs] at hhalt
    cases hhalt
    rfl
  have hboth : Runs none vm.unstalled (.terminated vm.unstalled.step.2.step.2) :=
    .goesOn hpass (.ends hend)
  refine ⟨?_, ((stalls_invisible alwaysReady_vecIo vm).1 _).mp (.last hboth)⟩
  rw [step_eq_stepWithin (by decide : 0 < 10) (by omega)]
  decide +kernel

end MarieVMCore

end MarieRs.Vm
