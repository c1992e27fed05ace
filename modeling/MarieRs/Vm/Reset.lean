import MarieRs.Vm.Api
import MarieRs.Vm.Reverse

namespace MarieRs.Vm

/-- A run outcome without its machine. -/
inductive RunReport where
  | suspended (reason : SuspendReason)
  | terminated
  | faulted (fault : Fault)
  | panicked
  deriving DecidableEq, Repr

def RunOutcome.report {D : Type} : RunOutcome D → RunReport
  | .suspended _ reason => .suspended reason
  | .terminated _ => .terminated
  | .faulted _ fault => .faulted fault
  | .panicked _ => .panicked

/-- The two ways of installing a program. -/
inductive Program where
  | flash (programMemory : MemoryImage) (entryPoint : MemoryAddress)
  | load (origin : MemoryAddress) (words : List Word)

/-- A call that executes forward, with what it reported. -/
inductive Forward where
  | microStep (out : MicroOutcome)
  | step (result : Continuation)
  | run (budget : Option Nat) (report : RunReport)

/-- Only a run stops at breakpoints. -/
def Forward.isRun : Forward → Bool
  | .run _ _ => true
  | _ => false

namespace MarieVMCore

variable {D : Type}

def resetWithProgram (vm : MarieVMCore D) (programMemory : MemoryImage)
    (entryPoint : MemoryAddress) : MarieVMCore D :=
  vm.reset.flashProgram programMemory entryPoint

def install (vm : MarieVMCore D) : Program → Except ProgramTooLarge (MarieVMCore D)
  | .flash programMemory entryPoint => .ok (vm.flashProgram programMemory entryPoint)
  | .load origin words => vm.loadProgram origin words

/-- Equal but for the breakpoints, the recorded history and its limit. -/
def Alike (v w : MarieVMCore D) : Prop := v.snapshot = w.snapshot

theorem Alike.pc {v w : MarieVMCore D} (h : Alike v w) : v.registers.pc = w.registers.pc :=
  congrArg (fun s => s.datapath.registers.pc) h

theorem Alike.microPc {v w : MarieVMCore D} (h : Alike v w) : v.microPc = w.microPc :=
  congrArg Snapshot.microPc h

theorem Alike.datapath {v w : MarieVMCore D} (h : Alike v w) : v.datapath = w.datapath :=
  congrArg Snapshot.datapath h

theorem Alike.cycleLength {v w : MarieVMCore D} (h : Alike v w) :
    v.cycleLength = w.cycleLength := by
  have hdecoded : v.decoded = w.decoded := congrArg Datapath.decoded h.datapath
  rw [MarieVMCore.cycleLength, MarieVMCore.cycleLength, hdecoded]

theorem Alike.currentMicroOp {v w : MarieVMCore D} (h : Alike v w) :
    v.currentMicroOp = w.currentMicroOp := by
  have hdecoded : v.decoded = w.decoded := congrArg Datapath.decoded h.datapath
  rw [MarieVMCore.currentMicroOp, MarieVMCore.currentMicroOp, h.microPc, hdecoded]

theorem Alike.control {v w : MarieVMCore D} (h : Alike v w) : v.control = w.control := by
  have hdatapath := h.datapath
  simp only [MarieVMCore.datapath, Datapath.mk.injEq] at hdatapath
  obtain ⟨-, -, -, hdecoded, haddress, hcomparison⟩ := hdatapath
  rw [MarieVMCore.control, MarieVMCore.control, h.microPc, hdecoded, haddress, hcomparison]

theorem Alike.begin {v w : MarieVMCore D} (h : Alike v w) :
    Alike v.beginInstruction w.beginInstruction := by
  have hdatapath := h.datapath
  simp only [MarieVMCore.datapath, Datapath.mk.injEq] at hdatapath
  obtain ⟨hregisters, hmemory, hdevice, hdecoded, haddress, hcomparison⟩ := hdatapath
  simp only [Alike, snapshot, MarieVMCore.datapath, beginInstruction, h.microPc]
  split <;> simp only [hregisters, hmemory, hdevice, hdecoded, haddress, hcomparison, h.microPc]

theorem Alike.advance {v w : MarieVMCore D} (h : Alike v w) (entry other : Entry) :
    Alike (v.record entry).advanceMicroPc (w.record other).advanceMicroPc := by
  have hcycle : (v.record entry).cycleLength = (w.record other).cycleLength := h.cycleLength
  have hdatapath : (v.record entry).datapath = (w.record other).datapath := h.datapath
  have hmicroPc : (v.record entry).microPc = (w.record other).microPc := h.microPc
  rw [Alike, snapshot, snapshot, Snapshot.mk.injEq]
  refine ⟨hdatapath, ?_⟩
  simp only [advanceMicroPc, hcycle, hmicroPc]

theorem Alike.restore {v w : MarieVMCore D} (h : Alike v w) (c : Control) :
    Alike (v.restore c) (w.restore c) := by
  have hdatapath := h.datapath
  simp only [MarieVMCore.datapath, Datapath.mk.injEq] at hdatapath
  obtain ⟨hregisters, hmemory, hdevice, -, -, -⟩ := hdatapath
  simp only [Alike, snapshot, MarieVMCore.datapath, MarieVMCore.restore, hregisters, hmemory,
    hdevice]

/-- The same program finds the same machine, or the same lack of room. -/
theorem Alike.install {v w : MarieVMCore D} (h : Alike v w) (program : Program) :
    (∃ error, v.install program = .error error ∧ w.install program = .error error) ∨
      ∃ v' w', v.install program = .ok v' ∧ w.install program = .ok w' ∧ Alike v' w' ∧
        v'.breakpoints = v.breakpoints ∧ w'.breakpoints = w.breakpoints := by
  have hdatapath := h.datapath
  simp only [MarieVMCore.datapath, Datapath.mk.injEq] at hdatapath
  obtain ⟨hregisters, hmemory, hdevice, hdecoded, haddress, hcomparison⟩ := hdatapath
  cases program with
  | flash programMemory entryPoint =>
    refine .inr ⟨_, _, rfl, rfl, ?_, rfl, rfl⟩
    simp only [Alike, snapshot, MarieVMCore.datapath, flashProgram, flashMemory, rewindTo,
      hregisters, hdevice]
  | load origin words =>
    simp only [MarieVMCore.install, loadProgram, hmemory]
    cases hload : MemoryImage.load w.memory origin words with
    | error error => exact .inl ⟨error, rfl, rfl⟩
    | ok memory =>
      refine .inr ⟨_, _, rfl, rfl, ?_, rfl, rfl⟩
      simp only [Alike, snapshot, MarieVMCore.datapath, rewindTo, hregisters, hdevice]

section Device
variable [MarieVmIODevice D]

/-- A micro-step reads neither the breakpoints nor the journal. -/
theorem Alike.microStep {v w : MarieVMCore D} (h : Alike v w) :
    v.microStep.1 = w.microStep.1 ∧ Alike v.microStep.2 w.microStep.2 := by
  cases hop : v.currentMicroOp with
  | none =>
    have hop' : w.currentMicroOp = none := h.currentMicroOp ▸ hop
    simp only [MarieVMCore.microStep, begin_currentMicroOp, hop, hop']
    exact ⟨trivial, h.begin⟩
  | some op =>
    have hop' : w.currentMicroOp = some op := h.currentMicroOp ▸ hop
    obtain ⟨hresult, hafter⟩ := execute_congr h.begin.datapath op
    rcases hv : v.beginInstruction.executeMicroOp op with ⟨result, core⟩
    rcases hw : w.beginInstruction.executeMicroOp op with ⟨result', core'⟩
    rw [hv, hw] at hresult hafter
    cases hresult
    have hcores : Alike core core' := by
      rw [Alike, snapshot, snapshot, Snapshot.mk.injEq]
      refine ⟨hafter, ?_⟩
      rw [(execute_frame hv).2.2.1, (execute_frame hw).2.2.1]
      exact h.begin.microPc
    cases result with
    | ok effect =>
      rw [microStep_of_execute hop hv, microStep_of_execute hop' hw]
      exact ⟨rfl, hcores.advance _ _⟩
    | error stop =>
      rw [microStep_of_error hop hv, microStep_of_error hop' hw, h.control]
      exact ⟨rfl, hcores.restore _⟩

theorem microStep_breakpoints (vm : MarieVMCore D) :
    vm.microStep.2.breakpoints = vm.breakpoints := by
  rcases hs : vm.microStep with ⟨out, vm'⟩
  rcases microStep_cases hs with ⟨op, effect, core, -, -, he, rfl⟩ | ⟨-, hvm'⟩
  · have hframe := (execute_frame he).1
    rw [begin_frame] at hframe
    exact hframe
  · rw [hvm']

theorem Alike.step {v w : MarieVMCore D} (h : Alike v w) :
    v.step.1 = w.step.1 ∧ Alike v.step.2 w.step.2 := by
  induction hk : 10 - v.microPc using Nat.strong_induction_on generalizing v w with
  | _ k ih =>
    obtain ⟨hout, hnext⟩ := h.microStep
    rcases hv : v.microStep with ⟨out, v'⟩
    rcases hw : w.microStep with ⟨out', w'⟩
    rw [hv, hw] at hout hnext
    cases hout
    cases out with
    | executed op =>
      by_cases hz : v'.microPc = 0
      · have hz' : w'.microPc = 0 := hnext.microPc ▸ hz
        rw [step_boundary hv hz, step_boundary hw hz']
        exact ⟨rfl, hnext⟩
      · have hz' : w'.microPc ≠ 0 := hnext.microPc ▸ hz
        obtain ⟨hpc, hten⟩ := microStep_microPc hv hz
        rw [step_inner hv hz, step_inner hw hz']
        exact ih _ (by omega) hnext rfl
    | halted | awaitingInput | faulted fault | panicked =>
      rw [step_stop hv (by simp), step_stop hw (by simp)]
      exact ⟨rfl, hnext⟩

theorem step_breakpoints (vm : MarieVMCore D) : vm.step.2.breakpoints = vm.breakpoints :=
  step_keeps (fun other hother => (microStep_breakpoints other).trans hother) rfl

/-- A pass through the loop of a run under the same breakpoints. -/
theorem Alike.runPass {v w : MarieVMCore D} (h : Alike v w) (hbreak : v.breakpoints = w.breakpoints)
    (budget : Option Nat) (executed : Nat) :
    (∃ outcome outcome', MarieVMCore.runPass budget executed v = .inl outcome ∧
      MarieVMCore.runPass budget executed w = .inl outcome' ∧ outcome.report = outcome'.report ∧
      Alike outcome.machine outcome'.machine ∧
      outcome.machine.breakpoints = outcome'.machine.breakpoints) ∨
    ∃ v' w', MarieVMCore.runPass budget executed v = .inr v' ∧
      MarieVMCore.runPass budget executed w = .inr w' ∧ Alike v' w' ∧
      v'.breakpoints = w'.breakpoints := by
  have hat : v.atBreakpoint = w.atBreakpoint := by
    rw [atBreakpoint, atBreakpoint, h.microPc, h.pc, hbreak]
  obtain ⟨hresult, hnext⟩ := h.step
  have hkept : v.step.2.breakpoints = w.step.2.breakpoints := by
    rw [step_breakpoints, step_breakpoints, hbreak]
  rcases hv : v.step with ⟨result, v'⟩
  rcases hw : w.step with ⟨result', w'⟩
  rw [hv, hw] at hresult hnext hkept
  cases hresult
  simp only [MarieVMCore.runPass, hat, hv, hw, h.pc]
  split
  · exact .inl ⟨_, _, rfl, rfl, rfl, h, hbreak⟩
  · split
    · exact .inl ⟨_, _, rfl, rfl, rfl, h, hbreak⟩
    · cases result with
      | continue_ => exact .inr ⟨_, _, rfl, rfl, hnext, hkept⟩
      | halted | awaitingInput | faulted fault | panicked =>
        exact .inl ⟨_, _, rfl, rfl, rfl, hnext, hkept⟩

/-- Runs under the same breakpoints report the same and end alike. -/
theorem Alike.run {budget : Option Nat} {executed : Nat} {v w : MarieVMCore D}
    {outcome : RunOutcome D} (hrun : RunInner budget executed v outcome) (h : Alike v w)
    (hbreak : v.breakpoints = w.breakpoints) :
    ∃ outcome', RunInner budget executed w outcome' ∧ outcome.report = outcome'.report ∧
      Alike outcome.machine outcome'.machine ∧
      outcome.machine.breakpoints = outcome'.machine.breakpoints := by
  induction hrun generalizing w with
  | ends hpass =>
    rcases h.runPass hbreak budget _ with ⟨first, second, hfirst, hsecond, hends⟩ |
      ⟨v', w', hfirst, -⟩
    · rw [hpass] at hfirst
      cases hfirst
      exact ⟨second, .ends hsecond, hends⟩
    · rw [hpass] at hfirst
      cases hfirst
  | goesOn hpass hrest ih =>
    rcases h.runPass hbreak budget _ with ⟨first, second, hfirst, -⟩ |
      ⟨v', w', hfirst, hsecond, hnext, hkept⟩
    · rw [hpass] at hfirst
      cases hfirst
    · rw [hpass] at hfirst
      cases hfirst
      obtain ⟨outcome', hrest', hends⟩ := ih hnext hkept
      exact ⟨outcome', .goesOn hsecond hrest', hends⟩

/-- A session of forward calls, the latest last. -/
inductive Drives : MarieVMCore D → List Forward → MarieVMCore D → Prop where
  | nil (vm : MarieVMCore D) : Drives vm [] vm
  | microStep {vm vm' : MarieVMCore D} {log : List Forward} (h : Drives vm log vm') :
    Drives vm (log ++ [.microStep vm'.microStep.1]) vm'.microStep.2
  | step {vm vm' : MarieVMCore D} {log : List Forward} (h : Drives vm log vm') :
    Drives vm (log ++ [.step vm'.step.1]) vm'.step.2
  | run {vm vm' : MarieVMCore D} {log : List Forward} {budget : Option Nat}
    {outcome : RunOutcome D} (h : Drives vm log vm') (hrun : Runs budget vm' outcome) :
    Drives vm (log ++ [.run budget outcome.report]) outcome.machine

/-- What a session on a newly installed program shows. -/
def Shows (start : Except ProgramTooLarge (MarieVMCore D)) (log : List Forward)
    (seen : Snapshot D) : Prop :=
  ∃ vm vm', start = .ok vm ∧ Drives vm log vm' ∧ vm'.snapshot = seen

theorem Alike.drives {v w v' : MarieVMCore D} {log : List Forward} (hdrives : Drives v log v')
    (h : Alike v w)
    (hbreak : v.breakpoints = w.breakpoints ∨ ∀ call ∈ log, call.isRun = false) :
    ∃ w', Drives w log w' ∧ Alike v' w' ∧
      (v.breakpoints = w.breakpoints → v'.breakpoints = w'.breakpoints) := by
  induction hdrives with
  | nil => exact ⟨w, .nil w, h, id⟩
  | microStep hdrives ih =>
    obtain ⟨w', hdrives', hends, hkept⟩ :=
      ih (hbreak.imp_right fun hall call hcall => hall call (List.mem_append_left _ hcall))
    obtain ⟨hout, hnext⟩ := hends.microStep
    refine ⟨_, hout ▸ hdrives'.microStep, hnext, fun hsame => ?_⟩
    rw [microStep_breakpoints, microStep_breakpoints, hkept hsame]
  | step hdrives ih =>
    obtain ⟨w', hdrives', hends, hkept⟩ :=
      ih (hbreak.imp_right fun hall call hcall => hall call (List.mem_append_left _ hcall))
    obtain ⟨hout, hnext⟩ := hends.step
    refine ⟨_, hout ▸ hdrives'.step, hnext, fun hsame => ?_⟩
    rw [step_breakpoints, step_breakpoints, hkept hsame]
  | run hdrives hrun ih =>
    obtain ⟨w', hdrives', hends, hkept⟩ :=
      ih (hbreak.imp_right fun hall call hcall => hall call (List.mem_append_left _ hcall))
    have hsame : v.breakpoints = w.breakpoints := by
      rcases hbreak with hsame | hall
      · exact hsame
      · have hnot := hall _ (List.mem_append_right _ (List.mem_singleton_self _))
        cases hnot
    obtain ⟨outcome', hrun', hreport, hmachines, hbreaks⟩ := hends.run hrun (hkept hsame)
    exact ⟨_, hreport ▸ hdrives'.run hrun', hmachines, fun _ => hbreaks⟩

theorem Alike.shows {v w : MarieVMCore D} (h : Alike v w) {program : Program}
    {log : List Forward} {seen : Snapshot D}
    (hbreak : v.breakpoints = w.breakpoints ∨ ∀ call ∈ log, call.isRun = false)
    (hshows : Shows (v.install program) log seen) : Shows (w.install program) log seen := by
  obtain ⟨loaded, vm, hloaded, hdrives, rfl⟩ := hshows
  rcases h.install program with ⟨error, herror, -⟩ | ⟨v', w', hv, hw, halike, hkept, hkept'⟩
  · rw [hloaded] at herror
    cases herror
  · rw [hloaded] at hv
    cases hv
    rw [← hkept, ← hkept'] at hbreak
    obtain ⟨vm', hdrives', hends, -⟩ := halike.drives hdrives hbreak
    exact ⟨w', vm', hw, hdrives', hends.symm⟩

end Device

/-- The machine is new again, but for its device, breakpoints and history limit; so whatever
ran before, what is installed next is shown by every session as on a new machine. -/
theorem reset_forgets [MarieVmIODevice D] (vm : MarieVMCore D) :
    vm.reset = { new vm.ioDevice with
      breakpoints := vm.breakpoints, history := { limit := vm.history.limit } } ∧
    (∀ programMemory entryPoint, vm.reset.install (.flash programMemory entryPoint) =
      .ok (vm.resetWithProgram programMemory entryPoint)) ∧
    (∀ program log seen, Shows (vm.reset.install program) log seen ↔
      Shows ({ new vm.ioDevice with breakpoints := vm.breakpoints }.install program) log seen) ∧
    ∀ program log seen, (∀ call ∈ log, call.isRun = false) →
      (Shows (vm.reset.install program) log seen ↔
        Shows ((new vm.ioDevice).install program) log seen) := by
  have hkept : Alike vm.reset { new vm.ioDevice with breakpoints := vm.breakpoints } := rfl
  have hnew : Alike vm.reset (new vm.ioDevice) := rfl
  refine ⟨rfl, fun _ _ => rfl, fun program log seen => ⟨?_, ?_⟩, fun program log seen hall =>
    ⟨?_, ?_⟩⟩
  · exact hkept.shows (.inl rfl)
  · exact Alike.shows hkept.symm (.inl rfl)
  · exact hnew.shows (.inr hall)
  · exact Alike.shows hnew.symm (.inr hall)

end MarieVMCore

end MarieRs.Vm
