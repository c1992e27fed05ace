import MarieRs.Vm.Api

namespace MarieRs.Vm

/-- The micro-program counter is inside the cycle that the decoded instruction, stale or
not, gives it. -/
def Control.InCycle (c : Control) : Prop :=
  c.microPc < match c.decoded with
    | some i => cycleLength i.opcode
    | none => FETCH_DECODE.length

namespace MarieVMCore

variable {D : Type}

theorem inCycle_iff {vm : MarieVMCore D} : vm.control.InCycle ↔ vm.microPc < vm.cycleLength := by
  rw [Control.InCycle, cycleLength]
  rfl

/-- The control state is in its cycle, and undoing cannot bring back one that is not. -/
structure Sound (vm : MarieVMCore D) : Prop where
  control : vm.control.InCycle
  journal : ∀ entry ∈ vm.history.entries, entry.control.InCycle

theorem Sound.current {vm : MarieVMCore D} (h : Sound vm) : ∃ op, vm.currentMicroOp = some op := by
  have hlt := inCycle_iff.mp h.control
  rw [currentMicroOp]
  by_cases hfetch : vm.microPc < FETCH_DECODE.length
  · rw [List.getElem?_eq_getElem hfetch]
    exact ⟨_, rfl⟩
  · rw [List.getElem?_eq_none (not_lt.mp hfetch)]
    rw [cycleLength] at hlt
    cases hdecoded : vm.decoded with
    | none =>
      rw [hdecoded] at hlt
      exact absurd hlt hfetch
    | some i =>
      simp only [hdecoded, Vm.cycleLength] at hlt ⊢
      exact ⟨_, List.getElem?_eq_getElem (by omega)⟩

/-- Past the fetch phase there is a decoded instruction. -/
theorem Sound.decoded {vm : MarieVMCore D} (h : Sound vm)
    (hfetch : FETCH_DECODE.length ≤ vm.microPc) : ∃ i, vm.decoded = some i := by
  have hlt := inCycle_iff.mp h.control
  rw [cycleLength] at hlt
  cases hdecoded : vm.decoded with
  | none =>
    rw [hdecoded] at hlt
    exact absurd hlt (not_lt.mpr hfetch)
  | some i => exact ⟨i, rfl⟩

/-- Past the fetch phase the operations are those of the decoded instruction. -/
theorem currentMicroOp_past {vm : MarieVMCore D} {op : MicroOp}
    (h : vm.currentMicroOp = some op) (hfetch : FETCH_DECODE.length ≤ vm.microPc) :
    ∃ i, vm.decoded = some i ∧ op ∈ execute i.opcode := by
  rw [currentMicroOp, List.getElem?_eq_none hfetch] at h
  split at h
  · rename_i hsome
    cases hsome
  · split at h
    · cases h
    · rename_i i hi
      exact ⟨i, hi, List.mem_of_getElem? h⟩

theorem currentMicroOp_execute {vm : MarieVMCore D} {op : MicroOp}
    (h : vm.currentMicroOp = some op) (hop : op ∉ FETCH_DECODE) :
    FETCH_DECODE.length ≤ vm.microPc ∧ ∃ i, vm.decoded = some i ∧ op ∈ execute i.opcode := by
  have hfetch : FETCH_DECODE.length ≤ vm.microPc := by
    by_contra hlt
    rw [currentMicroOp, List.getElem?_eq_getElem (not_le.mp hlt), Option.some.injEq] at h
    exact hop (h ▸ List.getElem_mem _)
  exact ⟨hfetch, currentMicroOp_past h hfetch⟩

theorem currentMicroOp_fetch {vm : MarieVMCore D} {op : MicroOp}
    (h : vm.currentMicroOp = some op) (hk : vm.microPc < 5) :
    FETCH_DECODE[vm.microPc]? = some op := by
  have hlt : vm.microPc < FETCH_DECODE.length := hk
  rw [currentMicroOp, List.getElem?_eq_getElem hlt] at h
  rw [List.getElem?_eq_getElem hlt]
  exact h

theorem currentMicroOp_decode {vm : MarieVMCore D} (h : vm.currentMicroOp = some .decode) :
    vm.microPc = 4 := by
  by_cases hk : vm.microPc < 5
  · have hop := currentMicroOp_fetch h hk
    obtain hk | hk | hk | hk | hk : vm.microPc = 0 ∨ vm.microPc = 1 ∨ vm.microPc = 2 ∨
        vm.microPc = 3 ∨ vm.microPc = 4 := by omega
    all_goals
      rw [hk] at hop
      first
        | exact hk
        | cases hop
  · obtain ⟨i, -, hmem⟩ := currentMicroOp_past h (not_lt.mp hk)
    exact absurd hmem (decode_not_mem_execute _)

theorem compare_decoded {vm : MarieVMCore D} (h : vm.currentMicroOp = some .compare) :
    ∃ i, vm.decoded = some i ∧ i.opcode = .skipCond := by
  obtain ⟨-, i, hi, hmem⟩ := currentMicroOp_execute h (by decide)
  exact ⟨i, hi, compare_mem_execute hmem⟩

theorem cycleLength_pos (vm : MarieVMCore D) : 0 < vm.cycleLength :=
  Nat.lt_of_lt_of_le (by decide) vm.fetch_le_cycleLength

/-- However the counter advances, it stays in the cycle. -/
theorem advance_inCycle (vm : MarieVMCore D) : vm.advanceMicroPc.control.InCycle := by
  rw [inCycle_iff]
  have hpos := vm.cycleLength_pos
  have hsame : vm.advanceMicroPc.cycleLength = vm.cycleLength := rfl
  rw [hsame]
  simp only [advanceMicroPc]
  split
  · exact hpos
  · rename_i hlt
    exact not_le.mp hlt

theorem rewind_sound (vm : MarieVMCore D) (entryPoint : MemoryAddress) :
    Sound (vm.rewindTo entryPoint) where
  control := by
    rw [inCycle_iff]
    exact cycleLength_pos _
  journal := fun entry hentry => by cases hentry

theorem mem_record {history : History} {entry other : Entry}
    (h : other ∈ (history.record entry).entries) : other = entry ∨ other ∈ history.entries := by
  unfold History.record at h
  repeat' split at h
  · exact .inr h
  · rcases List.mem_append.mp h with h | h
    · exact .inr (List.mem_of_mem_tail h)
    · exact .inl (List.mem_singleton.mp h)
  · rcases List.mem_append.mp h with h | h
    · exact .inr h
    · exact .inl (List.mem_singleton.mp h)

/-- The operations since the start of the instruction that is underway, or that was the last to
be completed. -/
def toStart (vm : MarieVMCore D) : Nat := if vm.microPc = 0 then vm.cycleLength else vm.microPc

theorem toStart_pos (vm : MarieVMCore D) : 0 < vm.toStart := by
  rw [toStart]
  split
  · exact vm.cycleLength_pos
  · omega

section Device
variable [MarieVmIODevice D]

/-- Every micro-step is one operation more since the start of its instruction. -/
theorem microStep_toStart {vm vm' : MarieVMCore D} {op : MicroOp}
    (hs : vm.microStep = (.executed op, vm')) (hcycle : vm.control.InCycle) :
    vm'.toStart = vm.microPc + 1 := by
  rw [inCycle_iff] at hcycle
  obtain ⟨hop, effect, core, he, rfl⟩ := microStep_executed hs
  have hmicroPc : core.microPc = vm.microPc := (execute_frame he).2.2.1.trans (begin_microPc vm)
  have hinside : vm.microPc < core.cycleLength := by
    by_cases hdecode : op = .decode
    · subst hdecode
      have hfetch := core.fetch_le_cycleLength
      rw [currentMicroOp_decode hop]
      exact Nat.lt_of_lt_of_le (by decide) hfetch
    · have hdecoded : core.decoded = vm.decoded := by
        rw [execute_decoded he hdecode, begin_decoded]
      rw [cycleLength, hdecoded]
      exact hcycle
  rw [toStart]
  change (if (if core.microPc + 1 ≥ core.cycleLength then 0 else core.microPc + 1) = 0 then
    core.cycleLength else if core.microPc + 1 ≥ core.cycleLength then 0 else core.microPc + 1) = _
  rw [hmicroPc]
  by_cases hend : vm.microPc + 1 ≥ core.cycleLength
  · rw [if_pos hend, if_pos rfl]
    omega
  · rw [if_neg hend, if_neg (Nat.succ_ne_zero _)]

theorem Sound.microStep {vm : MarieVMCore D} (h : Sound vm) : Sound vm.microStep.2 := by
  rcases hs : vm.microStep with ⟨out, vm'⟩
  rcases microStep_cases hs with ⟨op, effect, core, rfl, -, he, rfl⟩ | ⟨-, hsame⟩
  · refine ⟨advance_inCycle _, fun entry hentry => ?_⟩
    have hhistory : core.history = vm.history := by
      rw [(execute_frame he).2.1, begin_frame]
    rcases mem_record hentry with rfl | hold
    · exact h.control
    · rw [hhistory] at hold
      exact h.journal entry hold
  · rw [hsame]
    exact ⟨h.control, h.journal⟩

theorem Sound.microStepBack {vm : MarieVMCore D} (h : Sound vm) : Sound vm.microStepBack.2 := by
  rcases vm.microStepBack_cases with ⟨entry, hlast, -, hcontrol, hhistory⟩ | ⟨error, -, hsame⟩
  · constructor
    · rw [hcontrol]
      exact h.journal entry (List.mem_of_getLast? hlast)
    · rw [hhistory]
      intro other hother
      exact h.journal other (List.mem_of_mem_dropLast hother)
  · rw [hsame]
    exact ⟨h.control, h.journal⟩

theorem Sound.no_panic {vm : MarieVMCore D} (h : Sound vm) : vm.microStep.1 ≠ .panicked := by
  obtain ⟨op, hop⟩ := h.current
  intro hpanic
  simp only [MarieVMCore.microStep, begin_currentMicroOp, hop] at hpanic
  split at hpanic
  · cases hpanic
  · rename_i stop core he
    have hstop : stop = .panicked := hpanic
    rw [hstop] at he
    cases op with
    | compare =>
      obtain ⟨i, hi, hopcode⟩ := compare_decoded hop
      have hcondition : vm.beginInstruction.decoded.bind Instruction.skipCondition =
          some (SkipCondition.fromOperand i.operand) := by
        rw [begin_decoded, hi, Option.bind_some, Instruction.skipCondition, hopcode]
      simp only [executeMicroOp, hcondition] at he
      cases he
    | transfer | readMemory | writeMemory | incrementPc | add | subtract | loadImmediate | halt =>
      cases he
    | decode | skipIfComparison | readInput | writeOutput =>
      simp only [executeMicroOp, executeMicroOp.done] at he
      repeat' split at he
      all_goals cases he

theorem Sound.step_no_panic {vm : MarieVMCore D} (h : Sound vm) : vm.step.1 ≠ .panicked := by
  induction hk : 10 - vm.microPc using Nat.strong_induction_on generalizing vm with
  | _ k ih =>
    have hnext := h.microStep
    have hnot := h.no_panic
    rcases hs : vm.microStep with ⟨out, vm'⟩
    rw [hs] at hnext hnot
    cases out with
    | executed op =>
      by_cases hz : vm'.microPc = 0
      · rw [step_boundary hs hz]
        simp
      · obtain ⟨hpc, hten⟩ := microStep_microPc hs hz
        rw [step_inner hs hz]
        exact ih _ (by omega) hnext rfl
    | panicked => exact absurd rfl hnot
    | halted | awaitingInput | faulted fault =>
      rw [step_stop hs (by simp)]
      simp [Continuation.ofStop]

theorem Sound.run_no_panic {budget : Option Nat} {executed : Nat} {vm : MarieVMCore D}
    {outcome : RunOutcome D} (hrun : RunInner budget executed vm outcome) (h : Sound vm) :
    ∀ vm', outcome ≠ .panicked vm' := by
  induction hrun with
  | goesOn hpass hrest ih => exact ih ((runPass_keeps (fun _ => Sound.microStep) h).2 _ hpass)
  | @ends executed vm outcome hpass =>
    have hnot := h.step_no_panic
    intro vm' houtcome
    rw [houtcome, runPass] at hpass
    repeat' split at hpass
    all_goals cases hpass
    rename_i hs
    rw [hs] at hnot
    exact hnot rfl

/-- Every call keeps the control unit sound. -/
theorem Call.sound {state state' : MarieVmState} {vm vm' : MarieVMCore D}
    (hcall : Call state vm state' vm') (h : Sound vm) : Sound vm' := by
  cases hcall with
  | flashProgram => exact rewind_sound _ _
  | reset => exact rewind_sound _ _
  | resetTerminated => exact rewind_sound _ _
  | loadProgram hload =>
    simp only [MarieVMCore.loadProgram] at hload
    split at hload
    · cases hload
    · cases hload
      exact rewind_sound _ _
  | boot | debug | pause | resume | debugTerminated => exact h
  | flashMemory | registersMut | memoryMut | ioMut | breakpointsMut => exact ⟨h.control, h.journal⟩
  | run hrun => exact run_keeps (fun _ => Sound.microStep) hrun h
  | step => exact step_keeps (fun _ => Sound.microStep) h
  | microStep => exact h.microStep
  | microStepBack => exact h.microStepBack
  | stepBack => exact stepBack_keeps (fun _ => Sound.microStepBack) h
  | setHistoryLimit _ _ limit =>
    refine ⟨h.control, fun entry hentry => h.journal entry ?_⟩
    have hkept : entry ∈ (vm.history.setLimit limit).entries := hentry
    rw [History.setLimit_entries] at hkept
    exact List.mem_of_mem_drop hkept
  | clearHistory => exact ⟨h.control, fun entry hentry => by cases hentry⟩

theorem Reachable.sound {state : MarieVmState} {vm : MarieVMCore D} (h : Reachable state vm) :
    Sound vm := by
  induction h with
  | new ioDevice => exact ⟨by rw [inCycle_iff]; exact cycleLength_pos _, by simp [MarieVMCore.new]⟩
  | call _ hcall ih => exact hcall.sound ih

/-- Whatever the public interface is used for, there is a next micro-operation, it is one
that can be performed, and neither stepping nor running panics. -/
theorem cannot_panic {state : MarieVmState} {vm : MarieVMCore D} (h : Reachable state vm) :
    (∃ op, vm.currentMicroOp = some op) ∧
    vm.microPc < vm.cycleLength ∧ vm.microPc < 10 ∧
    (FETCH_DECODE.length ≤ vm.microPc → ∃ i, vm.decoded = some i) ∧
    (vm.currentMicroOp = some .compare → ∃ i, vm.decoded = some i ∧ i.opcode = .skipCond) ∧
    vm.microStep.1 ≠ .panicked ∧ vm.step.1 ≠ .panicked ∧
    ∀ budget outcome, Runs budget vm outcome → ∀ vm', outcome ≠ .panicked vm' := by
  have hsound := h.sound
  have hlt := inCycle_iff.mp hsound.control
  have hten := vm.cycleLength_le_ten
  exact ⟨hsound.current, hlt, by omega, hsound.decoded, compare_decoded, hsound.no_panic,
    hsound.step_no_panic, fun _ _ hrun => Sound.run_no_panic hrun hsound⟩

/-- A machine whose memory and registers were written over in the middle of a cycle. -/
theorem cannot_panic_edited :
    let vm := { (MarieVMCore.new (VecIo.new [])).microStep.2 with
      registers := { ir := 0xF000 }, memory := fun _ => 0xFFFF }
    (∃ op, vm.currentMicroOp = some op) ∧
    vm.microPc < vm.cycleLength ∧ vm.microPc < 10 ∧
    (FETCH_DECODE.length ≤ vm.microPc → ∃ i, vm.decoded = some i) ∧
    (vm.currentMicroOp = some .compare → ∃ i, vm.decoded = some i ∧ i.opcode = .skipCond) ∧
    vm.microStep.1 ≠ .panicked ∧ vm.step.1 ≠ .panicked ∧
    ∀ budget outcome, Runs budget vm outcome → ∀ vm', outcome ≠ .panicked vm' := by
  have hnew : Reachable .ready (MarieVMCore.new (VecIo.new [])) := .new _
  have hstepped : Reachable .stepping (MarieVMCore.new (VecIo.new [])).microStep.2 :=
    (hnew.call (.debug _)).call (.microStep _)
  exact cannot_panic ((hstepped.call (.registersMut _ _ { ir := 0xF000 })).call
    (.memoryMut _ _ fun _ => 0xFFFF))

end Device

end MarieVMCore

end MarieRs.Vm
