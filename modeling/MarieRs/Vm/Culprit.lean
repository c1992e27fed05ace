import MarieRs.Vm.Rewinding
import MarieRs.Vm.Stops

namespace MarieRs.Vm

open Lib

namespace MarieVMCore

variable {D V : Type} {view : D → V}

/-- What the fetch phase has come to after `k` operations of the instruction that began as `b`;
after all five there is an instruction to execute. -/
def Progress (b vm : MarieVMCore D) : Nat → Prop
  | 0 => vm.registers.pc = b.registers.pc
  | 1 => vm.registers.pc = b.registers.pc ∧ vm.registers.mar = b.registers.pc
  | 2 => vm.registers.pc = b.registers.pc ∧ vm.registers.mbr = b.memory b.registers.pc
  | 3 => vm.registers.pc = b.registers.pc ∧ vm.registers.ir = b.memory b.registers.pc
  | 4 => vm.registers.pc = b.registers.pc + 1 ∧ vm.registers.ir = b.memory b.registers.pc
  | _ + 5 => ∃ i, b.fetched = some i ∧ vm.decoded = some i

/-- `vm` is on the way through the instruction that began as `b`. -/
structure Fetches (b vm : MarieVMCore D) : Prop where
  address : vm.beginInstruction.instructionAddress = b.registers.pc
  kept : vm.microPc ≤ 5 → vm.memory = b.memory ∧ vm.registers.ac = b.registers.ac
  progress : Progress b vm vm.microPc

theorem Fetches.start {b : MarieVMCore D} (hz : b.microPc = 0) : Fetches b b where
  address := by rw [beginInstruction, if_pos hz]
  kept := fun _ => ⟨rfl, rfl⟩
  progress := by
    rw [hz]
    rfl

/-- This is not a matter of the device or the journal. -/
theorem Fetches.congr {b vm w : MarieVMCore D} (h : Fetches b vm)
    (hseen : vm.seen view = w.seen view) : Fetches b w := by
  obtain ⟨hsame, -⟩ := eq_of_seen hseen
  have hbegin : w.beginInstruction.instructionAddress = vm.beginInstruction.instructionAddress := by
    rw [hsame]
    unfold beginInstruction
    split
    · rfl
    · rfl
  have hmicroPc : w.microPc = vm.microPc := by rw [hsame]
  refine ⟨hbegin.trans h.address, ?_, ?_⟩
  · rw [hsame]
    exact h.kept
  · have hprogress := h.progress
    rw [hmicroPc]
    rw [hsame]
    unfold Progress at hprogress ⊢
    split
    all_goals
      rename_i heq
      rw [heq] at hprogress
      exact hprogress

section Device
variable [MarieVmIODevice D]

/-- One operation more of the fetch phase, or one that decodes nothing. -/
theorem Fetches.execute {b vm core : MarieVMCore D} {op : MicroOp} {effect : Effect}
    (h : Fetches b vm) (hop : vm.currentMicroOp = some op)
    (he : vm.beginInstruction.executeMicroOp op = (.ok effect, core)) :
    Progress b core (vm.microPc + 1) ∧
      (vm.microPc < 5 → core.memory = b.memory ∧ core.registers.ac = b.registers.ac) := by
  have hprogress := h.progress
  have hkept := h.kept
  rw [begin_frame] at he
  by_cases hfetch : vm.microPc < 5
  · obtain ⟨hmemory, hac⟩ := hkept (by omega)
    have hop := currentMicroOp_fetch hop hfetch
    obtain hk | hk | hk | hk | hk : vm.microPc = 0 ∨ vm.microPc = 1 ∨ vm.microPc = 2 ∨
        vm.microPc = 3 ∨ vm.microPc = 4 := by omega
    all_goals
      rw [hk] at hop hprogress
      cases hop
      rw [hk]
    · cases he
      refine ⟨⟨hprogress, ?_⟩, fun _ => ⟨hmemory, hac⟩⟩
      have hpc : vm.registers.pc = b.registers.pc := hprogress
      simp [writeRegister, Registers.write, Registers.read, hpc]
    · cases he
      refine ⟨⟨hprogress.1, ?_⟩, fun _ => ⟨hmemory, hac⟩⟩
      simp [writeRegister, Registers.write, hprogress.2, hmemory]
    · cases he
      exact ⟨⟨hprogress.1, hprogress.2⟩, fun _ => ⟨hmemory, hac⟩⟩
    · cases he
      refine ⟨⟨?_, hprogress.2⟩, fun _ => ⟨hmemory, hac⟩⟩
      simp [writeRegister, Registers.write, hprogress.1]
    · obtain ⟨i, hi, rfl⟩ := execute_decode he
      refine ⟨⟨i, ?_, rfl⟩, fun _ => ⟨hmemory, hac⟩⟩
      rw [fetched, ← hprogress.2]
      exact hi
  · refine ⟨?_, fun hlt => absurd hlt hfetch⟩
    obtain ⟨k, hk⟩ : ∃ k, vm.microPc = k + 5 := ⟨vm.microPc - 5, by omega⟩
    have hpast : FETCH_DECODE.length ≤ vm.microPc := not_lt.mp hfetch
    rw [hk] at hprogress ⊢
    obtain ⟨i, hi, hdecoded⟩ := hprogress
    refine ⟨i, hi, (execute_decoded he ?_).trans hdecoded⟩
    rintro rfl
    obtain ⟨j, -, hmem⟩ := currentMicroOp_past hop hpast
    exact decode_not_mem_execute _ hmem

theorem Fetches.microStep {b vm vm' : MarieVMCore D} {op : MicroOp} (h : Fetches b vm)
    (hs : vm.microStep = (.executed op, vm')) (hz : vm'.microPc ≠ 0) : Fetches b vm' := by
  obtain ⟨hmicroPc, -⟩ := microStep_microPc hs hz
  obtain ⟨hop, effect, core, he, rfl⟩ := microStep_executed hs
  obtain ⟨hprogress, hkept⟩ := h.execute hop he
  refine ⟨?_, ?_, ?_⟩
  · rw [beginInstruction, if_neg hz]
    exact (execute_frame he).2.2.2.trans h.address
  · intro hle
    exact hkept (by omega)
  · rw [hmicroPc]
    exact hprogress

/-- An instruction that comes to its end was decoded. -/
theorem Fetches.completed {b vm vm' : MarieVMCore D} {op : MicroOp} (h : Fetches b vm)
    (hs : vm.microStep = (.executed op, vm')) (hz : vm'.microPc = 0) :
    ∃ i, b.fetched = some i ∧ vm'.decoded = some i := by
  obtain ⟨hop, effect, core, he, rfl⟩ := microStep_executed hs
  have hprogress := (h.execute hop he).1
  have hmicroPc : core.microPc = vm.microPc := (execute_frame he).2.2.1.trans (begin_microPc vm)
  have hcycle := core.fetch_le_cycleLength
  have hlong : core.cycleLength ≤ vm.microPc + 1 := by
    by_contra hlt
    have hnext : (advanceMicroPc (core.record ⟨vm.control, op, effect⟩)).microPc =
        core.microPc + 1 := by
      apply if_neg
      change ¬core.microPc + 1 ≥ core.cycleLength
      rw [hmicroPc]
      exact hlt
    omega
  have hfive : FETCH_DECODE.length = 5 := rfl
  obtain ⟨k, hk⟩ : ∃ k, vm.microPc + 1 = k + 5 := ⟨vm.microPc - 4, by omega⟩
  rw [hk] at hprogress
  exact hprogress

/-- What a fault says of the instruction that began as `b` and left `after`. -/
def Blames (b after : MarieVMCore D) : Fault → Prop
  | .invalidOpcode address word =>
    address = b.registers.pc ∧ word = b.memory b.registers.pc ∧ word.toNat / 4096 = 0xF ∧
      after.registers.ac = b.registers.ac ∧ after.memory = b.memory ∧
      after.registers.pc.toNat = (b.registers.pc.toNat + 1) % 4096
  | .io address opcode _ =>
    address = b.registers.pc ∧
      ∃ i, Instruction.decode (b.memory b.registers.pc) = some i ∧ i.opcode = opcode

/-- A micro-step that faults names the instruction it belongs to. -/
theorem Fetches.faulted {b vm after : MarieVMCore D} {fault : Fault} (h : Fetches b vm)
    (hs : vm.microStep = (.faulted fault, after)) : Blames b after fault := by
  have hstop : ∀ op, vm.microStep.1 ≠ .executed op := by
    intro op hop
    rw [hs] at hop
    cases hop
  obtain ⟨op, core, hop, he, -⟩ := (microStep_stopped hstop).resolve_left (by rw [hs]; simp)
  have hafter : after = { vm with ioDevice := after.ioDevice } := by
    have hsame := microStep_stop_device hstop
    rw [hs] at hsame
    exact hsame
  have hregisters : vm.beginInstruction.registers = vm.registers := by rw [begin_frame]
  rw [hs] at he
  have hdevice : ∀ operation, op = operation → operation ∉ FETCH_DECODE →
      ∃ i, b.fetched = some i ∧ operation ∈ Vm.execute i.opcode := by
    rintro operation rfl hfetch
    obtain ⟨hpast, i, hi, hmem⟩ := currentMicroOp_execute hop hfetch
    obtain ⟨k, hk⟩ : ∃ k, vm.microPc = k + 5 := ⟨vm.microPc - 5, by
      have hfive : FETCH_DECODE.length = 5 := rfl
      omega⟩
    have hprogress := h.progress
    rw [hk] at hprogress
    obtain ⟨j, hj, hdecoded⟩ := hprogress
    rw [hi] at hdecoded
    cases hdecoded
    exact ⟨i, hj, hmem⟩
  rcases execute_faulted he with ⟨rfl, hnone, rfl⟩ | ⟨rfl, error, rfl⟩ | ⟨rfl, error, rfl⟩
  · rw [hregisters] at hnone ⊢
    have hk := currentMicroOp_decode hop
    have hprogress := h.progress
    obtain ⟨hmemory, hac⟩ := h.kept (by omega)
    rw [hk] at hprogress
    obtain ⟨hpc, hir⟩ := hprogress
    refine ⟨h.address, hir, Instruction.decode_eq_none.mp hnone, ?_⟩
    rw [hafter]
    refine ⟨hac, hmemory, ?_⟩
    change vm.registers.pc.toNat = _
    rw [hpc, BitVec.toNat_add]
    rfl
  · obtain ⟨i, hi, hmem⟩ := hdevice _ rfl (by decide)
    exact ⟨h.address, i, hi, readInput_mem_execute hmem⟩
  · obtain ⟨i, hi, hmem⟩ := hdevice _ rfl (by decide)
    exact ⟨h.address, i, hi, writeOutput_mem_execute hmem⟩

/-- So does an instruction that faults after some more micro-steps. -/
theorem StopsAfter.blames {b vm after : MarieVMCore D} {n : Nat} {fault : Fault}
    (h : StopsAfter vm n (.faulted fault) after) (hfetches : Fetches b vm) :
    Blames b after fault := by
  generalize hstop : MicroOutcome.faulted fault = stop at h
  induction h with
  | now h _ =>
    rw [← hstop] at h
    exact hfetches.faulted h
  | next h hz hrest ih => exact ih (hfetches.microStep h hz) hstop

theorem step_faulted {vm after : MarieVMCore D} {fault : Fault}
    (h : vm.step = (.faulted fault, after)) : ∃ n, StopsAfter vm n (.faulted fault) after := by
  rcases vm.step_cases with ⟨n, s, hfinishes⟩ | ⟨n, stop, s, hstops⟩
  · rw [hfinishes.step] at h
    cases h
  · rw [hstops.step, Prod.mk.injEq] at h
    obtain ⟨hstop, rfl⟩ := h
    cases stop with
    | faulted other =>
      cases hstop
      exact ⟨n, hstops⟩
    | executed | halted | awaitingInput | panicked => cases hstop

/-- A run that faults does so in the instruction it is in, or in a later one from its
boundary. -/
theorem run_faulted {budget : Option Nat} {vm after : MarieVMCore D} {fault : Fault}
    (h : Runs budget vm (.faulted after fault)) : ∃ k m n s, Instructions vm k m s ∧
      StopsAfter s n (.faulted fault) after := by
  have hclear : Clear budget vm 0 := fun j hj => absurd hj (Nat.not_lt_zero j)
  obtain ⟨k, m, s, hreach, hstops, -⟩ := stops_of_run h .zero hclear
  generalize houtcome : RunOutcome.faulted after fault = outcome at hstops
  cases hstops with
  | stepLimit | breakpoint => cases houtcome
  | @instruction n stop vm' hlimit hbreak hstops =>
    cases stop with
    | faulted other =>
      cases houtcome
      exact ⟨k, m, n, s, hreach, hstops⟩
    | executed | halted | awaitingInput | panicked => cases houtcome

theorem rewinds_unit : Rewinds fun _ : D => () where
  pollStopped := fun _ _ => rfl
  outputStopped := fun _ _ _ => rfl
  unread := fun _ _ _ _ _ _ => rfl
  unwrite := fun _ _ _ _ _ _ => rfl
  display := fun _ _ _ => rfl

/-- The machine is part-way through the instruction that it began as `b`: what was executed
since and not undone is that instruction's operations. Whatever the device did in between. -/
structure Inside (b vm : MarieVMCore D) : Prop where
  boundary : b.microPc = 0
  session : ∃ past, Stepped (fun _ : D => ()) b past vm ∧ past.length = vm.microPc

theorem Inside.begin {b : MarieVMCore D} (hz : b.microPc = 0) : Inside b b :=
  ⟨hz, [], .start, hz.symm⟩

theorem Inside.executed {b vm vm' : MarieVMCore D} {op : MicroOp} (h : Inside b vm)
    (hs : vm.microStep = (.executed op, vm')) (hz : vm'.microPc ≠ 0) : Inside b vm' := by
  obtain ⟨past, hsession, hlength⟩ := h.session
  obtain ⟨hmicroPc, -⟩ := microStep_microPc hs hz
  refine ⟨h.boundary, _, hsession.forward hs, ?_⟩
  rw [List.length_append, List.length_singleton]
  omega

/-- A step or a run that is stopped inside the instruction leaves the machine inside it. -/
theorem Inside.stopped {b vm after : MarieVMCore D} {n : Nat} {stop : MicroOutcome}
    (h : Inside b vm) (hstops : StopsAfter vm n stop after) : Inside b after := by
  induction hstops with
  | @now vm after stop hs hstop =>
    obtain ⟨past, hsession, hlength⟩ := h.session
    have hsame := microStep_stop hs hstop
    have hnext : Stepped (fun _ : D => ()) b past vm.microStep.2 := by
      apply hsession.stopped
      rw [hs]
      exact hstop
    rw [hs] at hnext
    refine ⟨h.boundary, past, hnext, ?_⟩
    rw [hsame]
    exact hlength
  | next hs hz hrest ih => exact ih (h.executed hs hz)

theorem Inside.microStepBack {state : MarieVmState} {b vm : MarieVMCore D}
    (hb : Reachable state b) (h : Inside b vm) (hin : vm.microPc ≠ 0) :
    Inside b vm.microStepBack.2 := by
  obtain ⟨past, hsession, hlength⟩ := h.session
  rcases List.eq_nil_or_concat' past with rfl | ⟨before, last, rfl⟩
  · exact absurd hlength.symm hin
  · rw [List.length_append, List.length_singleton] at hlength
    rcases (hsession.exact rewinds_unit hb.bounded).back with
      ⟨op, v, hs, -, -, hforward, -⟩ | ⟨error, v, hs, -, hseen, -⟩ | ⟨hs, -⟩
    · have hback := hsession.back hs
      have hstep := forward_toStart hforward (hback.sound hb.sound).control
      rw [toStart, if_neg hin] at hstep
      have hlength : before.length = v.microPc := by omega
      rw [hs]
      exact ⟨h.boundary, before, hback, hlength⟩
    · have hmicroPc : v.microPc = vm.microPc := congrArg Snapshot.microPc hseen
      rw [hs]
      refine ⟨h.boundary, _, hsession.refused hs, ?_⟩
      rw [List.length_append, List.length_singleton, hmicroPc]
      exact hlength
    · rw [hs]
      exact h

/-- Going back over it stays inside it. -/
theorem Inside.stepBack {state : MarieVmState} {b vm : MarieVMCore D} (hb : Reachable state b)
    (h : Inside b vm) (hin : vm.microPc ≠ 0) : Inside b vm.stepBack.2 := by
  rw [MarieVMCore.stepBack]
  generalize (0 : Nat) = undone
  induction hk : vm.history.entries.length using Nat.strong_induction_on
    generalizing vm undone with
  | _ k ih =>
    have hnext := h.microStepBack hb hin
    rcases hs : vm.microStepBack with ⟨result, v⟩
    rw [hs] at hnext
    cases result with
    | error error =>
      rw [stepBackFrom_error hs]
      exact hnext
    | ok op =>
      by_cases hz : v.microPc = 0
      · rw [stepBackFrom_boundary hs hz]
        exact hnext
      · rw [stepBackFrom_inner hs hz]
        exact ih _ (hk ▸ microStepBack_shrinks hs) hnext hz _ rfl

theorem fetches_path {b : MarieVMCore D} (hz : b.microPc = 0)
    {links : List (Snapshot V × Entry)} {t : Snapshot V}
    (hpath : Journal.Path (Links view) (b.seen view) links t) (hlength : links.length = t.microPc)
    {vm : MarieVMCore D} (hvm : vm.seen view = t) : Fetches b vm := by
  induction links using List.reverseRecOn generalizing t vm with
  | nil =>
    cases hpath
    exact (Fetches.start hz).congr hvm.symm
  | append_singleton before last ih =>
    obtain ⟨s, e⟩ := last
    obtain ⟨hbefore, ⟨v, v', hv, hs, hv'⟩, -⟩ := hpath.last
    rw [List.length_append, List.length_singleton] at hlength
    have hnow : v'.microPc = t.microPc := congrArg Snapshot.microPc hv'
    have hthen : v.microPc = s.microPc := congrArg Snapshot.microPc hv
    obtain ⟨hmicroPc, -⟩ := microStep_microPc hs (by omega)
    have hfetches : Fetches b v := ih hbefore (by omega) hv
    exact (hfetches.microStep hs (by omega)).congr (hv'.trans hvm.symm)

theorem Inside.fetches {b vm : MarieVMCore D} (h : Inside b vm)
    (hbounded : b.history.entries.length ≤ b.history.limit) : Fetches b vm := by
  obtain ⟨past, hsession, hlength⟩ := h.session
  obtain ⟨links, rfl, hexact⟩ := hsession.exact rewinds_unit hbounded
  apply fetches_path h.boundary hexact.path _ rfl
  rw [performed, List.length_map] at hlength
  exact hlength

/-- However an instruction is executed, the fault it ends in is its own: the address is where
it began, an undecodable word is the word there and has the one unassigned opcode, and what
failed is an instruction of the opcode named. A run that goes on blames a later instruction in
the same way. -/
theorem faults_name_culprit {state : MarieVmState} {b vm : MarieVMCore D}
    (hb : Reachable state b) (h : Inside b vm) :
    (∀ fault after, vm.microStep = (.faulted fault, after) ∨ vm.step = (.faulted fault, after) →
      Blames b after fault ∧ ((b.memory b.registers.pc).toNat / 4096 ≠ 0xF →
        ∀ address word, fault ≠ .invalidOpcode address word)) ∧
    ∀ budget fault after, Runs budget vm (.faulted after fault) →
      ∃ s, (s = b ∨ s.microPc = 0 ∧ ∃ k n, Instructions vm (k + 1) n s) ∧
        Blames s after fault ∧ ((s.memory s.registers.pc).toNat / 4096 ≠ 0xF →
          ∀ address word, fault ≠ .invalidOpcode address word) := by
  have hfetches := h.fetches hb.bounded
  have hassigned : ∀ {s after : MarieVMCore D} {fault : Fault}, Blames s after fault →
      (s.memory s.registers.pc).toNat / 4096 ≠ 0xF →
        ∀ address word, fault ≠ .invalidOpcode address word := by
    rintro s after fault hblames hne address word rfl
    obtain ⟨-, rfl, hnibble, -⟩ := hblames
    exact hne hnibble
  refine ⟨fun fault after hfault => ?_, fun budget fault after hrun => ?_⟩
  · have hblames : Blames b after fault := by
      rcases hfault with hfault | hfault
      · exact hfetches.faulted hfault
      · obtain ⟨n, hstops⟩ := step_faulted hfault
        exact hstops.blames hfetches
    exact ⟨hblames, hassigned hblames⟩
  · obtain ⟨k, m, n, s, hreach, hstops⟩ := run_faulted hrun
    cases k with
    | zero =>
      cases hreach
      have hblames := hstops.blames hfetches
      exact ⟨b, .inl rfl, hblames, hassigned hblames⟩
    | succ k =>
      have hz : s.microPc = 0 := hreach.microSteps.2 (Nat.le_add_left 1 k)
      have hblames := hstops.blames (.start hz)
      exact ⟨s, .inr ⟨hz, k, m, hreach⟩, hblames, hassigned hblames⟩

/-- An undecodable word at the last address, after a step back inside its fetch. -/
theorem faults_name_culprit_top :
    let b := ((MarieVMCore.new (VecIo.new [])).flashProgram (fun _ => 0xF123) 0xFFF)
      |>.setHistoryLimit 4
    let vm := b.microStep.2.microStep.2.microStepBack.2
    vm.microPc = 1 ∧ Blames b vm.step.2 (.invalidOpcode 0xFFF 0xF123) := by
  intro b vm
  have hb : Reachable .ready b :=
    ((Reachable.new _).call (.flashProgram _ _ _)).call (.setHistoryLimit _ _ _)
  have hone : Inside b b.microStep.2 :=
    (Inside.begin rfl).executed (Prod.ext (by decide +kernel) rfl) (by decide +kernel)
  have htwo : Inside b b.microStep.2.microStep.2 :=
    hone.executed (Prod.ext (by decide +kernel) rfl) (by decide +kernel)
  have hvm : Inside b vm := htwo.microStepBack hb (by decide +kernel)
  have hfault : vm.step = (.faulted (.invalidOpcode 0xFFF 0xF123), vm.step.2) :=
    Prod.ext (by decide +kernel) rfl
  exact ⟨by decide +kernel, ((faults_name_culprit hb hvm).1 _ _ (.inr hfault)).1⟩

end Device

end MarieVMCore

end MarieRs.Vm
