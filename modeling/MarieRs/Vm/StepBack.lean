import MarieRs.Vm.Culprit

namespace MarieRs.Vm

open Lib
open MarieVmIODevice

namespace MarieVMCore

variable {D V : Type} {view : D → V} [MarieVmIODevice D]

theorem microStepBack_breakpoints (vm : MarieVMCore D) :
    vm.microStepBack.2.breakpoints = vm.breakpoints := by
  simp only [microStepBack]
  cases vm.history.last with
  | none => rfl
  | some entry =>
    obtain ⟨control, op, effect⟩ := entry
    cases effect with
    | none | register => rfl
    | memory =>
      simp only [notifyDisplay_eq]
      rfl
    | inputRead | outputWritten =>
      simp only
      split
      · rfl
      · rfl

omit [MarieVmIODevice D] in
theorem begin_seen {v w : MarieVMCore D} (hlike : v.seen view = w.seen view) :
    v.beginInstruction.seen view = w.beginInstruction.seen view := by
  obtain ⟨hsame, hdevice⟩ := eq_of_seen hlike
  rw [hsame]
  unfold beginInstruction
  split
  · simp only [seen, hdevice]
  · simp only [seen, hdevice]

/-- An operation goes the same way on a machine that looks the same. -/
theorem execute_repeats (hrewinds : Rewinds view) (hrepeats : Repeats view)
    {v w core : MarieVMCore D} {op : MicroOp} {effect : Effect}
    (hlike : v.seen view = w.seen view) (he : v.executeMicroOp op = (.ok effect, core)) :
    ∃ core', w.executeMicroOp op = (.ok effect, core') ∧ core'.seen view = core.seen view := by
  obtain ⟨hsame, hdevice⟩ := eq_of_seen hlike
  rw [hsame]
  cases op <;>
    simp only [executeMicroOp, executeMicroOp.done, writeRegister, writeMemory_eq] at he ⊢
  case readInput =>
    obtain ⟨hanswer, hafter⟩ := hrepeats.poll _ _ hdevice.symm
    rcases hpoll : pollInput w.ioDevice with ⟨answer, device⟩
    rw [hpoll] at hanswer hafter
    split at he
    · cases he
    · cases he
    · rename_i value device' hpoll'
      cases he
      rw [hpoll'] at hanswer hafter
      subst hanswer
      exact ⟨_, rfl, by simp only [seen, ← hafter]⟩
  case writeOutput =>
    obtain ⟨hanswer, hafter⟩ := hrepeats.output _ _ v.registers.output hdevice.symm
    rcases hout : output w.ioDevice v.registers.output with ⟨answer, device⟩
    rw [hout] at hanswer hafter
    split at he
    · cases he
    · rename_i device' hout'
      cases he
      rw [hout'] at hanswer hafter
      subst hanswer
      exact ⟨_, rfl, by simp only [seen, ← hafter]⟩
  case writeMemory =>
    cases he
    exact ⟨_, rfl, by simp only [seen, displayed_view hrewinds, hdevice]⟩
  case decode | compare =>
    split at he
    · cases he
    · cases he
      exact ⟨_, rfl, by simp only [seen, hdevice]⟩
  case skipIfComparison =>
    split at he
    · rename_i hholds
      cases he
      exact ⟨_, if_pos hholds, by simp only [seen, hdevice]⟩
    · rename_i hholds
      cases he
      exact ⟨_, if_neg hholds, by simp only [seen, hdevice]⟩
  all_goals
    cases he
    try exact ⟨_, rfl, by simp only [seen, hdevice]⟩

/-- So does a micro-step. -/
theorem microStep_repeats (hrewinds : Rewinds view) (hrepeats : Repeats view)
    {v w v' : MarieVMCore D} {op : MicroOp} (hlike : v.seen view = w.seen view)
    (hs : v.microStep = (.executed op, v')) :
    ∃ w', w.microStep = (.executed op, w') ∧ w'.seen view = v'.seen view := by
  obtain ⟨hop, effect, core, he, rfl⟩ := microStep_executed hs
  obtain ⟨core', he', hcore⟩ := execute_repeats hrewinds hrepeats (begin_seen hlike) he
  have hcurrent : w.currentMicroOp = some op := by
    obtain ⟨hsame, -⟩ := eq_of_seen hlike
    rw [hsame]
    exact hop
  refine ⟨_, microStep_of_execute hcurrent he', ?_⟩
  obtain ⟨hsame, hdevice⟩ := eq_of_seen hcore.symm
  rw [hsame]
  simp only [seen, advanceMicroPc, record, hdevice]
  rfl

/-- The machine `vm'`, in which the latest `n` operations of a session are undone. -/
structure Undone (view : D → V) (start vm : MarieVMCore D) (past : List (Snapshot V × MicroOp))
    (n : Nat) (vm' : MarieVMCore D) : Prop where
  within : n ≤ past.length
  held : n ≤ vm.history.entries.length
  session : Stepped view start (past.take (past.length - n)) vm'
  state : (past.map Prod.fst ++ [vm.seen view])[past.length - n]? = some (vm'.seen view)
  journal : vm'.history =
    { vm.history with entries := vm.history.entries.take (vm.history.entries.length - n) }
  breakpoints : vm'.breakpoints = vm.breakpoints
  again : Repeats view → ∃ w, microSteps n vm' = some w ∧ Stepped view start past w ∧
    w.seen view = vm.seen view

theorem Undone.none {start vm vm' : MarieVMCore D} {past : List (Snapshot V × MicroOp)}
    (hsession : Stepped view start past vm') (hseen : vm'.seen view = vm.seen view)
    (hhistory : vm'.history = vm.history) (hbreakpoints : vm'.breakpoints = vm.breakpoints) :
    Undone view start vm past 0 vm' where
  within := Nat.zero_le _
  held := Nat.zero_le _
  session := by
    rw [Nat.sub_zero, List.take_length]
    exact hsession
  state := by
    rw [Nat.sub_zero, List.getElem?_append_right (by simp), hseen]
    simp
  journal := by
    rw [Nat.sub_zero, List.take_length]
    exact hhistory
  breakpoints := hbreakpoints
  again := fun _ => ⟨vm', rfl, hsession, hseen⟩

/-- One operation more is undone. -/
theorem Undone.more (hrewinds : Rewinds view) {start vm v vm' : MarieVMCore D}
    {before : List (Snapshot V × MicroOp)} {op : MicroOp} {n : Nat}
    (hs : vm.microStepBack = (.ok op, v)) (hpop : v.history = vm.history.pop)
    (hforward : Forward view op (v.seen view) (vm.seen view))
    (h : Undone view start v before n vm') :
    Undone view start vm (before ++ [(v.seen view, op)]) (n + 1) vm' := by
  have hshrinks := microStepBack_shrinks hs
  have hentries : v.history.entries = vm.history.entries.dropLast :=
    congrArg History.entries hpop
  have hlength : v.history.entries.length + 1 = vm.history.entries.length := by
    rw [hentries, List.length_dropLast]
    omega
  have hwithin := h.within
  have hheld := h.held
  have hindex : (before ++ [(v.seen view, op)]).length - (n + 1) = before.length - n := by
    rw [List.length_append, List.length_singleton]
    omega
  refine ⟨?_, by omega, ?_, ?_, ?_, ?_, ?_⟩
  · rw [List.length_append, List.length_singleton]
    omega
  · rw [hindex, List.take_append_of_le_length (Nat.sub_le _ _)]
    exact h.session
  · have hstate := h.state
    rw [hindex, List.map_append, List.map_singleton, List.getElem?_append_left]
    · exact hstate
    · simp only [List.length_append, List.length_map, List.length_singleton]
      omega
  · have hindex : v.history.entries.length - n = vm.history.entries.length - (n + 1) := by omega
    have htake : v.history.entries.take (v.history.entries.length - n) =
        vm.history.entries.take (vm.history.entries.length - (n + 1)) := by
      rw [hindex, hentries, List.dropLast_eq_take, List.take_take, min_eq_left (by omega)]
    rw [h.journal, htake, hpop]
    rfl
  · rw [h.breakpoints]
    have hsame := vm.microStepBack_breakpoints
    rw [hs] at hsame
    exact hsame
  · intro hrepeats
    obtain ⟨w, hsteps, hsession, hseen⟩ := h.again hrepeats
    obtain ⟨u, u', hu, hus, hu'⟩ := hforward
    obtain ⟨w', hws, hw'⟩ := microStep_repeats hrewinds hrepeats (hu.trans hseen.symm) hus
    refine ⟨w', ?_, ?_, hw'.trans hu'⟩
    · rw [microSteps_add hsteps, microSteps_succ hws]
      rfl
    · have hnext := hsession.forward hws
      rw [hseen] at hnext
      exact hnext

theorem Fetches.forward {b v vm : MarieVMCore D} {op : MicroOp} (h : Fetches b v)
    (hforward : Forward view op (v.seen view) (vm.seen view)) (hz : vm.microPc ≠ 0) :
    vm.microPc = v.microPc + 1 ∧ Fetches b vm := by
  obtain ⟨u, u', hu, hs, hu'⟩ := hforward
  have hbefore : u.microPc = v.microPc := congrArg Snapshot.microPc hu
  have hafter : u'.microPc = vm.microPc := congrArg Snapshot.microPc hu'
  have hnz : u'.microPc ≠ 0 := by omega
  obtain ⟨hmicroPc, -⟩ := microStep_microPc hs hnz
  exact ⟨by omega, ((h.congr hu.symm).microStep hs hnz).congr hu'⟩

theorem Fetches.finished {b v vm : MarieVMCore D} {op : MicroOp} (h : Fetches b v)
    (hforward : Forward view op (v.seen view) (vm.seen view)) (hz : vm.microPc = 0) :
    ∃ i, b.fetched = some i ∧ vm.decoded = some i := by
  obtain ⟨u, u', hu, hs, hu'⟩ := hforward
  have hafter : u'.microPc = vm.microPc := congrArg Snapshot.microPc hu'
  have hdecoded : u'.decoded = vm.decoded := congrArg (fun s => s.datapath.decoded) hu'
  rw [← hdecoded]
  exact (h.congr hu.symm).completed hs (hafter.trans hz)

/-- How `step_back` ends when `n` operations have been undone: at the start of the instruction,
or earlier with an error. -/
def Ends (view : D → V) (vm vm' : MarieVMCore D) (n undone : Nat)
    (result : Except StepBackError Nat × MarieVMCore D) : Prop :=
  (result = (.ok (undone + n), vm') ∧ n = vm.toStart ∧ vm'.microPc = 0 ∧
    (vm.microPc = 0 → ∃ i, vm'.fetched = some i ∧ n = Vm.cycleLength i.opcode)) ∨
  ∃ error, result = (.error error, vm') ∧ n < vm.toStart ∧
    (error = .noHistory ∧ vm'.history.entries = [] ∨ error ≠ .noHistory ∧ ¬Willing view)

theorem stepBackFrom_undone (hrewinds : Rewinds view) {state : MarieVmState}
    {start vm : MarieVMCore D} (hstart : Reachable state start)
    {past : List (Snapshot V × MicroOp)} (h : Stepped view start past vm)
    (hbegan : vm.toStart ≤ past.length ∨ start.history.entries = []) (undone : Nat) :
    ∃ n vm', Undone view start vm past n vm' ∧
      Ends view vm vm' n undone (stepBackFrom undone vm) ∧
      (vm'.microPc = 0 → vm.microPc = n → Fetches vm' vm) := by
  induction past using List.reverseRecOn generalizing vm undone with
  | nil =>
    have hpos := vm.toStart_pos
    have hnil : start.history.entries = [] := hbegan.resolve_left (by simp; omega)
    obtain ⟨links, hpast, hexact⟩ := h.exact hrewinds hstart.bounded
    rw [hnil] at hexact
    have hlinks : links = [] := List.map_eq_nil_iff.mp hpast.symm
    subst hlinks
    have hempty : vm.history.entries = [] := List.suffix_nil.mp hexact.suffix
    have hs : vm.microStepBack = (.error .noHistory, vm) := by
      simp only [microStepBack, History.last, hempty, List.getLast?_nil]
    exact ⟨0, vm, .none h rfl rfl rfl,
      .inr ⟨_, stepBackFrom_error hs, hpos, .inl ⟨rfl, hempty⟩⟩,
      fun hz _ => .start hz⟩
  | append_singleton before last ih =>
    have hpos := vm.toStart_pos
    rcases (h.exact hrewinds hstart.bounded).back with
      ⟨op, v, hs, rfl, hpop, hforward, -⟩ | ⟨error, v, hs, hne, hseen, hhistory, hwilling⟩ |
      ⟨hs, hempty⟩
    · have hsession := h.back hs
      have hstep := forward_toStart hforward (hsession.sound hstart.sound).control
      by_cases hz : v.microPc = 0
      · have hnone : Undone view start v before 0 v := .none hsession rfl rfl rfl
        refine ⟨1, v, hnone.more hrewinds hs hpop hforward,
          .inl ⟨stepBackFrom_boundary hs hz, by omega, hz, fun hboundary => ?_⟩, fun _ hone => ?_⟩
        · have hfetch : 5 ≤ vm.toStart := by
            rw [toStart, if_pos hboundary]
            exact vm.fetch_le_cycleLength
          omega
        · exact ((Fetches.start hz).forward hforward (by omega)).2
      · have hrest : v.toStart = v.microPc := if_neg hz
        rw [List.length_append, List.length_singleton] at hbegan
        obtain ⟨n, vm', hundone, hends, hfetches⟩ :=
          ih hsession (hbegan.imp_left (by omega)) (undone + 1)
        refine ⟨n + 1, vm', hundone.more hrewinds hs hpop hforward, ?_, fun hstart' hn => ?_⟩
        · rw [stepBackFrom_inner hs hz]
          rcases hends with ⟨hok, hn, hboundary, -⟩ | ⟨error, herror, hn, hwhy⟩
          · refine .inl ⟨?_, by omega, hboundary, fun hend => ?_⟩
            · rw [hok, Nat.add_right_comm, Nat.add_assoc]
            · obtain ⟨i, hi, hdecoded⟩ := (hfetches hboundary (by omega)).finished hforward hend
              refine ⟨i, hi, ?_⟩
              have hcycle : vm.toStart = Vm.cycleLength i.opcode := by
                rw [toStart, if_pos hend, cycleLength, hdecoded]
              omega
          · exact .inr ⟨error, herror, by omega, hwhy⟩
        · have hnz : vm.microPc ≠ 0 := by omega
          have hmicroPc : vm.microPc = v.microPc + 1 := by
            rw [← hstep, toStart, if_neg hnz]
          exact ((hfetches hstart' (by omega)).forward hforward hnz).2
    · have hsame := vm.microStepBack_breakpoints
      rw [hs] at hsame
      refine ⟨0, v, .none (h.refused hs) hseen hhistory hsame,
        .inr ⟨error, stepBackFrom_error hs, hpos, .inr ⟨hne, hwilling⟩⟩, fun hz _ => ?_⟩
      exact (Fetches.start hz).congr hseen
    · exact ⟨0, vm, .none h rfl rfl rfl,
        .inr ⟨_, stepBackFrom_error hs, hpos, .inl ⟨rfl, hempty⟩⟩, fun hz _ => .start hz⟩

/-- A step back undoes the operations of one instruction: those of the instruction that is
underway, or at a boundary all of the last one. If the journal runs out or the device refuses
before that, the machine is what it was where that happens. Doing again what was undone leads
back. -/
theorem step_back_instruction (hrewinds : Rewinds view) {state : MarieVmState}
    {start vm : MarieVMCore D} (hstart : Reachable state start)
    {past : List (Snapshot V × MicroOp)} (h : Stepped view start past vm)
    (hbegan : vm.toStart ≤ past.length ∨ start.history.entries = []) :
    (∃ n vm', Undone view start vm past n vm' ∧ Ends view vm vm' n 0 vm.stepBack) ∧
    (Willing view → vm.toStart ≤ vm.history.entries.length → vm.stepBack.1 = .ok vm.toStart) := by
  obtain ⟨n, vm', hundone, hends, -⟩ := stepBackFrom_undone hrewinds hstart h hbegan 0
  refine ⟨⟨n, vm', hundone, hends⟩, fun hwilling hheld => ?_⟩
  rw [stepBack]
  rcases hends with ⟨hok, hn, -⟩ | ⟨error, -, hn, ⟨-, hempty⟩ | ⟨-, hrefused⟩⟩
  · rw [hok, hn, Nat.zero_add]
  · have hjournal := congrArg (fun history => history.entries.length) hundone.journal
    simp only [hempty, List.length_nil, List.length_take] at hjournal
    omega
  · exact absurd hwilling hrefused

/-- An `Input` that is completed, with room for its seven operations in the journal. -/
theorem step_back_instruction_input :
    let start := ((MarieVMCore.new (VecIo.new [3])).flashProgram (fun _ => 0x5000) 0)
      |>.setHistoryLimit 8
    let vm := start.step.2
    vm.stepBack.1 = .ok 7 ∧ ∃ past n vm', Undone (fun device => device) start vm past n vm' ∧
      Ends (fun device => device) vm vm' n 0 vm.stepBack ∧
      ∃ w, microSteps n vm' = some w ∧ w.snapshot = vm.snapshot := by
  intro start vm
  have hstart : Reachable .ready start :=
    ((Reachable.new _).call (.flashProgram _ _ _)).call (.setHistoryLimit _ _ _)
  have hbegin : Stepped (fun device : VecIo => device) start [] start := .start
  obtain ⟨past, hvm⟩ := hbegin.step
  obtain ⟨⟨n, vm', hundone, hends⟩, hheld⟩ :=
    step_back_instruction rewinds_vecIo hstart hvm (.inr rfl)
  obtain ⟨w, hsteps, -, hseen⟩ := hundone.again repeats_vecIo
  have hseven : vm.toStart = 7 := by decide +kernel
  have hok := hheld willing_vecIo (by decide +kernel)
  rw [hseven] at hok
  exact ⟨hok, past, n, vm', hundone, hends, w, hsteps, hseen⟩

end MarieVMCore

end MarieRs.Vm
