import MarieRs.Vm.Interpreter
import MarieRs.Vm.Reset

namespace MarieRs.Vm

open Lib.Triples

namespace Isa

variable {D : Type} [MarieVmIODevice D]

/-- What a documented run hands back. -/
inductive Outcome (D : Type) where
  | suspended (s : State D) (reason : SuspendReason)
  | terminated (s : State D)
  | faulted (s : State D) (fault : Fault)

def Stop.outcome {D : Type} : Stop → State D → Outcome D
  | .halted, s => .terminated s
  | .awaitingInput, s => .suspended s .awaitingInput
  | .faulted fault, s => .faulted s fault

/-- One pass of a documented run: the budget is looked at first, then the breakpoints unless the
run has only begun, and then there is an instruction. -/
def pass (stops : MemoryAddress → Bool) (budget : Option Nat) :
    Nat × State D → Outcome D ⊕ Nat × State D
  | (executed, s) =>
    if budget.any (fun limit => decide (executed ≥ limit)) then .inl (.suspended s .stepLimit)
    else if executed > 0 ∧ stops s.pc then .inl (.suspended s (.breakpoint s.pc))
    else
      match turn s with
      | .inr s => .inr (executed + 1, s)
      | .inl (stop, s) => .inl (stop.outcome s)

/-- A documented run, which need not end when there is no budget. -/
def Runs (stops : MemoryAddress → Bool) (budget : Option Nat) (s : State D)
    (outcome : Outcome D) : Prop :=
  ∃ passes, Ends (pass stops budget) passes (0, s) outcome

end Isa

namespace MarieVMCore

variable {D : Type} [MarieVmIODevice D]

/-- The loop of `run_inner`, pass by pass. -/
def pass (budget : Option Nat) : Nat × MarieVMCore D → RunOutcome D ⊕ Nat × MarieVMCore D
  | (executed, vm) =>
    match runPass budget executed vm with
    | .inl outcome => .inl outcome
    | .inr vm => .inr (executed + 1, vm)

theorem pass_ends {budget : Option Nat} {executed : Nat} {vm : MarieVMCore D}
    {outcome : RunOutcome D} :
    pass budget (executed, vm) = .inl outcome ↔ runPass budget executed vm = .inl outcome := by
  simp only [pass]
  cases runPass budget executed vm <;> simp

theorem pass_goes {budget : Option Nat} {executed : Nat} {vm : MarieVMCore D}
    {next : Nat × MarieVMCore D} :
    pass budget (executed, vm) = .inr next ↔
      ∃ vm', runPass budget executed vm = .inr vm' ∧ next = (executed + 1, vm') := by
  simp only [pass]
  cases runPass budget executed vm <;> simp [eq_comm]

theorem runInner_ends {budget : Option Nat} {executed : Nat} {vm : MarieVMCore D}
    {outcome : RunOutcome D} :
    RunInner budget executed vm outcome ↔ ∃ n, Ends (pass budget) n (executed, vm) outcome := by
  constructor
  · intro h
    induction h with
    | ends h => exact ⟨0, _, .none _, pass_ends.mpr h⟩
    | goesOn h hrest ih =>
      obtain ⟨n, last, hturns, hend⟩ := ih
      exact ⟨n + 1, last, .next (pass_goes.mpr ⟨_, h, rfl⟩) hturns, hend⟩
  · rintro ⟨n, last, hturns, hend⟩
    generalize hfirst : (executed, vm) = first at hturns
    induction hturns generalizing executed vm with
    | none =>
      rw [← hfirst] at hend
      exact .ends (pass_ends.mp hend)
    | next hturn hturns ih =>
      rw [← hfirst] at hturn
      obtain ⟨vm', hpass, hnext⟩ := pass_goes.mp hturn
      exact .goesOn hpass (ih hend hnext.symm)

/-- A run hands back what the documented run does. A machine that is stopped inside an instruction
has moved its program counter past it. -/
inductive HandsBack : RunOutcome D → Isa.Outcome D → Prop where
  | stepLimit {vm : MarieVMCore D} {s : Isa.State D} (h : Represents vm s) :
    HandsBack (.suspended vm .stepLimit) (.suspended s .stepLimit)
  | breakpoint {vm : MarieVMCore D} (hz : vm.microPc = 0) :
    HandsBack (.suspended vm (.breakpoint vm.registers.pc))
      (.suspended vm.arch (.breakpoint vm.registers.pc))
  | awaitingInput {vm : MarieVMCore D} {s : Isa.State D} (h : Represents vm s)
    (harch : vm.arch = { s with pc := s.pc + 1 }) :
    HandsBack (.suspended vm .awaitingInput) (.suspended s .awaitingInput)
  | terminated {vm : MarieVMCore D} {s : Isa.State D} (h : Represents vm s)
    (harch : vm.arch = { s with pc := s.pc + 1 }) : HandsBack (.terminated vm) (.terminated s)
  | faulted {vm : MarieVMCore D} {s : Isa.State D} {fault : Fault} (h : Represents vm s)
    (harch : vm.arch = { s with pc := s.pc + 1 }) :
    HandsBack (.faulted vm fault) (.faulted s fault)

/-- The machine stands in a run where the documented machine stands in its own. -/
structure Abreast (stops : MemoryAddress → Bool) (here : Nat × MarieVMCore D)
    (there : Nat × Isa.State D) : Prop where
  executed : here.1 = there.1
  represents : Represents here.2 there.2
  boundary : 0 < here.1 → here.2.microPc = 0
  stops : here.2.breakpoints.contains = stops

/-- The passes that come to an instruction do what the instruction does. -/
theorem runPass_turn {budget : Option Nat} {executed : Nat} {vm : MarieVMCore D}
    (hlimit : ¬budget.any (fun limit => decide (executed ≥ limit)) = true)
    (hbreak : ¬(executed > 0 ∧ vm.atBreakpoint = true)) :
    (∀ vm', turn vm = .inr vm' → runPass budget executed vm = .inr vm') ∧
      ∀ ended stop s, turn vm = .inl ended → Stopped ended (stop, s) →
        ∃ outcome, runPass budget executed vm = .inl outcome ∧
          HandsBack outcome (Isa.Stop.outcome stop s) := by
  rw [runPass, if_neg hlimit, if_neg hbreak]
  refine ⟨fun vm' hturn => ?_, ?_⟩
  · rw [turn_goes.mp hturn]
  · rintro ⟨result, vm'⟩ stop s hturn ⟨hreport, hrepresents, harch⟩
    rw [(turn_stops.mp hturn).1]
    change result = _ at hreport
    subst hreport
    cases stop with
    | halted => exact ⟨_, rfl, .terminated hrepresents harch⟩
    | awaitingInput => exact ⟨_, rfl, .awaitingInput hrepresents harch⟩
    | faulted fault => exact ⟨_, rfl, .faulted hrepresents harch⟩

theorem Abreast.atBreakpoint {stops : MemoryAddress → Bool} {executed : Nat} {vm : MarieVMCore D}
    {s : Isa.State D} (h : Abreast stops (executed, vm) (executed, s)) (hpos : executed > 0) :
    vm.microPc = 0 ∧ vm.arch = s ∧ vm.atBreakpoint = stops s.pc := by
  have hz : vm.microPc = 0 := h.boundary hpos
  have harch : vm.arch = s := h.represents.arch hz
  have hstops : vm.breakpoints.contains = stops := h.stops
  refine ⟨hz, harch, ?_⟩
  rw [MarieVMCore.atBreakpoint, hz, hstops, ← harch]
  rfl

theorem pass_simulates (stops : MemoryAddress → Bool) (budget : Option Nat) :
    Simulates (pass budget) (Isa.pass stops budget)
      (fun here there => Abreast (D := D) stops here there) HandsBack := by
  have hpass : ∀ {executed : Nat} {vm : MarieVMCore D} {s : Isa.State D},
      Abreast stops (executed, vm) (executed, s) →
      (∀ next, Isa.pass stops budget (executed, s) = .inr next →
        ∃ here, pass budget (executed, vm) = .inr here ∧ Abreast stops here next) ∧
      ∀ outcome, Isa.pass stops budget (executed, s) = .inl outcome →
        ∃ handed, pass budget (executed, vm) = .inl handed ∧ HandsBack handed outcome := by
    intro executed vm s h
    have hrepresents : Represents vm s := h.represents
    simp only [Isa.pass]
    by_cases hlimit : budget.any (fun limit => decide (executed ≥ limit)) = true
    · rw [if_pos hlimit]
      refine ⟨by simp, ?_⟩
      rintro _ ⟨⟩
      refine ⟨_, pass_ends.mpr ?_, .stepLimit hrepresents⟩
      rw [runPass, if_pos hlimit]
    · rw [if_neg hlimit]
      by_cases hstop : executed > 0 ∧ stops s.pc = true
      · rw [if_pos hstop]
        obtain ⟨hz, rfl, hat⟩ := h.atBreakpoint hstop.1
        refine ⟨by simp, ?_⟩
        rintro _ ⟨⟩
        refine ⟨_, pass_ends.mpr ?_, .breakpoint hz⟩
        rw [runPass, if_neg hlimit, if_pos ⟨hstop.1, by rw [hat]; exact hstop.2⟩]
      · rw [if_neg hstop]
        have hbreak : ¬(executed > 0 ∧ vm.atBreakpoint = true) := by
          rintro ⟨hpos, hat⟩
          rw [(h.atBreakpoint hpos).2.2] at hat
          exact hstop ⟨hpos, hat⟩
        obtain ⟨hgoes, hends⟩ := runPass_turn hlimit hbreak
        rcases hturn : Isa.turn s with ⟨stop, s'⟩ | s'
        · refine ⟨by simp, ?_⟩
          rintro _ ⟨⟩
          obtain ⟨ended, hended, hstopped⟩ := hrepresents.ends hturn
          obtain ⟨outcome, hrun, hhands⟩ := hends ended stop s' hended hstopped
          exact ⟨outcome, pass_ends.mpr hrun, hhands⟩
        · refine ⟨?_, by simp⟩
          rintro _ ⟨⟩
          obtain ⟨vm', hnext, hz, rfl⟩ := hrepresents.goes hturn
          refine ⟨_, pass_goes.mpr ⟨vm', hgoes vm' hnext, rfl⟩, rfl, .boundary hz,
            fun _ => hz, ?_⟩
          have hsame := vm.step_breakpoints
          rw [turn_goes.mp hnext] at hsame
          rw [← h.stops]
          exact congrArg BreakpointSet.contains hsame
  refine ⟨?_, ?_⟩
  · rintro ⟨executed, vm⟩ ⟨executed', s⟩ next h hs
    obtain rfl : executed = executed' := h.executed
    exact (hpass h).1 next hs
  · rintro ⟨executed, vm⟩ ⟨executed', s⟩ outcome h hs
    obtain rfl : executed = executed' := h.executed
    exact (hpass h).2 outcome hs

/-- Microcode refines the instruction set over whole runs: `run` and `run_bounded` hand back what
the documented machine does under the same breakpoints and the same budget, and come to no end
where it does not. -/
theorem run_documented {vm : MarieVMCore D} {s : Isa.State D} (h : Represents vm s)
    (budget : Option Nat) :
    (∀ outcome, Runs budget vm outcome → ∃ documented,
      Isa.Runs vm.breakpoints.contains budget s documented ∧ HandsBack outcome documented) ∧
    ∀ documented, Isa.Runs vm.breakpoints.contains budget s documented → ∃ outcome,
      Runs budget vm outcome ∧ HandsBack outcome documented := by
  have habreast : Abreast vm.breakpoints.contains (0, vm) (0, s) :=
    ⟨rfl, h, fun hpos => absurd hpos (lt_irrefl 0), rfl⟩
  have hends : ∀ passes, _ := fun passes =>
    (pass_simulates vm.breakpoints.contains budget).ends_iff (n := passes) habreast
  constructor
  · intro outcome hrun
    obtain ⟨passes, hpasses⟩ := runInner_ends.mp hrun
    obtain ⟨documented, hdocumented, hhands⟩ := (hends passes).1 outcome hpasses
    exact ⟨documented, ⟨passes, hdocumented⟩, hhands⟩
  · rintro documented ⟨passes, hpasses⟩
    obtain ⟨outcome, hrun, hhands⟩ := (hends passes).2 documented hpasses
    exact ⟨outcome, runInner_ends.mpr ⟨passes, hrun⟩, hhands⟩

theorem run_documented_input :
    (∀ outcome, Runs (some 3) inputMachine outcome → ∃ documented,
      Isa.Runs inputMachine.breakpoints.contains (some 3) inputMachine.arch documented ∧
        HandsBack outcome documented) ∧
    ∀ documented,
      Isa.Runs inputMachine.breakpoints.contains (some 3) inputMachine.arch documented →
        ∃ outcome, Runs (some 3) inputMachine outcome ∧ HandsBack outcome documented :=
  run_documented (.boundary rfl) (some 3)

/-- What calls that only go forward make of a machine. -/
inductive Driven (start : MarieVMCore D) : MarieVMCore D → Prop where
  | start : Driven start start
  | run {budget : Option Nat} {vm : MarieVMCore D} {outcome : RunOutcome D}
    (h : Driven start vm) (hrun : Runs budget vm outcome) : Driven start outcome.machine
  | step {vm : MarieVMCore D} (h : Driven start vm) : Driven start vm.step.2
  | microStep {vm : MarieVMCore D} (h : Driven start vm) : Driven start vm.microStep.2
  | breakpoints {vm : MarieVMCore D} (h : Driven start vm) (breakpoints : BreakpointSet) :
    Driven start { vm with breakpoints }
  | setHistoryLimit {vm : MarieVMCore D} (h : Driven start vm) (limit : Nat) :
    Driven start (vm.setHistoryLimit limit)

/-- What the documented machine makes of a state, instruction after instruction. -/
inductive Attempts (s : Isa.State D) : Isa.State D → Prop where
  | none : Attempts s s
  | step {s' : Isa.State D} (h : Attempts s s') : Attempts s (Isa.step s').2

/-- Neither the breakpoints nor the journal are of any concern to the instruction at hand. -/
theorem Represents.same {v w : MarieVMCore D} {s : Isa.State D} (h : Represents v s)
    (hd : v.datapath = w.datapath) (hz : w.microPc = v.microPc) : Represents w s := by
  have hsame := eq_of_datapath hd
  rw [hz] at hsame
  cases h with
  | underway h hs =>
    obtain ⟨c, hc, hcd⟩ := h.performed
    refine .underway ⟨h.boundary, h.fetched, ?_, c, ?_, ?_⟩ hs
    · rw [hz]
      exact h.inside
    · rw [hz]
      exact hc
    · rw [hcd, hsame]
      unfold beginInstruction
      split <;> rfl
  | stuck h hs =>
    obtain ⟨⟨hinside, hmemory, hpc, hmar, hmbr, hir⟩, hboundary, hnone, hac, hdevice, hcounter,
      haddress⟩ := h
    rw [hsame]
    exact .stuck ⟨⟨hinside, hmemory, hpc, hmar, hmbr, hir⟩, hboundary, hnone, hac, hdevice,
      hcounter, haddress⟩ hs

/-- Whatever is called, in whatever order, the machine is at work on the next instruction of a
documented run. -/
theorem driven_documented {start vm : MarieVMCore D} {s : Isa.State D} (h : Represents start s)
    (hdriven : Driven start vm) : ∃ s', Attempts s s' ∧ Represents vm s' := by
  have hmicro : ∀ vm : MarieVMCore D, (∃ s', Attempts s s' ∧ Represents vm s') →
      ∃ s', Attempts s s' ∧ Represents vm.microStep.2 s' := by
    rintro vm ⟨s', hs', hvm⟩
    cases hvm.advances with
    | inside _ _ hinside => exact ⟨s', hs', hinside⟩
    | done _ hz _ harch => exact ⟨_, hs'.step, harch ▸ .boundary hz⟩
    | stopped _ _ hstopped _ => exact ⟨_, hs'.step, hstopped⟩
  induction hdriven with
  | start => exact ⟨s, .none, h⟩
  | run _ hrun ih => exact run_keeps hmicro hrun ih
  | step _ ih => exact step_keeps hmicro ih
  | microStep _ ih => exact hmicro _ ih
  | breakpoints _ breakpoints ih =>
    obtain ⟨s', hs', hvm⟩ := ih
    exact ⟨s', hs', hvm.same rfl rfl⟩
  | setHistoryLimit _ limit ih =>
    obtain ⟨s', hs', hvm⟩ := ih
    exact ⟨s', hs', hvm.same rfl rfl⟩

theorem driven_documented_input :
    ∃ s', Attempts inputMachine.arch s' ∧ Represents inputMachine.microStep.2.step.2 s' :=
  driven_documented (.boundary rfl) (.step (.microStep .start))

end MarieVMCore

end MarieRs.Vm
