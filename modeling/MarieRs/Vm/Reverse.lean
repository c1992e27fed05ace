import MarieRs.Vm.Views

namespace MarieRs.Vm

open Lib

namespace MarieVMCore

/-- Entry `e` leads any machine that looks like `t`, and would step back to it
next, to one that looks like `s`. -/
def Undoes (e : Entry) (t s : Snapshot VecIo) : Prop :=
  ∀ vm : MarieVMCore VecIo, vm.snapshot = t → vm.history.last = some e →
    ∃ vm', vm.microStepBack = (.ok e.microOp, vm') ∧ vm'.snapshot = s ∧
      vm'.history = vm.history.pop

/-- An executed micro-operation is journalled under an entry that undoes it. -/
theorem microStep_undoes {vm vm' : MarieVMCore VecIo} {op : MicroOp}
    (h : vm.microStep = (.executed op, vm')) :
    ∃ e : Entry, e.microOp = op ∧ vm'.history = vm.history.record e ∧
      Undoes e vm'.snapshot vm.snapshot := by
  obtain ⟨e, hop, hhistory, hleads⟩ := microStep_leads rewinds_vecIo h
  refine ⟨e, hop, hhistory, ?_⟩
  intro w hw hlast
  rcases hleads w hw hlast with hback | ⟨error, w', -, -, -, -, hrefused⟩
  · exact hback
  · exact absurd willing_vecIo hrefused

inductive Command where
  | microStep
  | microStepBack
  | setHistoryLimit (limit : Nat)
  | clearHistory

/-- A machine together with the micro-operations executed and not undone since
the start, oldest first, each with what the machine looked like before it. -/
structure Session where
  vm : MarieVMCore VecIo
  past : List (Snapshot VecIo × MicroOp)

def Session.run (s : Session) : Command → Session
  | .microStep =>
    match s.vm.microStep with
    | (.executed op, vm) => ⟨vm, s.past ++ [(s.vm.snapshot, op)]⟩
    | (_, vm) => { s with vm }
  | .microStepBack =>
    match s.vm.microStepBack with
    | (.ok _, vm) => ⟨vm, s.past.dropLast⟩
    | (.error _, vm) => { s with vm }
  | .setHistoryLimit limit =>
    { s with vm := { s.vm with history := s.vm.history.setLimit limit } }
  | .clearHistory => { s with vm := { s.vm with history := s.vm.history.clear } }

def Session.runAll (s : Session) (commands : List Command) : Session :=
  commands.foldl Session.run s

/-- The journal is accurate about the session's past. -/
def Session.Exact (s : Session) : Prop :=
  ∃ past : List (Snapshot VecIo × Entry),
    s.past = past.map (fun p => (p.1, p.2.microOp)) ∧
    Journal.Journalled Undoes s.vm.history.limit s.vm.history.entries past s.vm.snapshot

/-- A scripted device is not changed by an operation that stops. -/
theorem microStep_stop_vecIo {vm vm' : MarieVMCore VecIo} {out : MicroOutcome}
    (h : vm.microStep = (out, vm')) (hx : ∀ op, out ≠ .executed op) : vm' = vm := by
  have hstop : ∀ op, vm.microStep.1 ≠ .executed op := by
    rw [h]
    exact hx
  have hseen := (microStep_stop_seen rewinds_vecIo hstop).1
  rw [h] at hseen
  have hdevice : vm'.ioDevice = vm.ioDevice := congrArg (fun s => s.datapath.ioDevice) hseen
  rw [microStep_stop h hx, hdevice]

theorem Session.run_exact {s : Session} (h : s.Exact) (c : Command) : (s.run c).Exact := by
  obtain ⟨past, hpast, hj⟩ := h
  cases c with
  | microStep =>
    simp only [Session.run]
    split
    · rename_i op vm hstep
      obtain ⟨e, rfl, hhist, hundo⟩ := microStep_undoes hstep
      obtain ⟨hentries, hlimit⟩ := record_entries s.vm.history e
      refine ⟨past ++ [(s.vm.snapshot, e)], by simp [hpast], ?_⟩
      change Journal.Journalled Undoes vm.history.limit vm.history.entries _ vm.snapshot
      rw [hhist, hentries, hlimit]
      exact hj.append hundo
    · rename_i out vm hne hstep
      rw [microStep_stop_vecIo hstep hne]
      exact ⟨past, hpast, hj⟩
  | microStepBack =>
    simp only [Session.run]
    cases hlast : s.vm.history.last with
    | none =>
      have hnone : s.vm.microStepBack = (.error .noHistory, s.vm) := by
        simp only [MarieVMCore.microStepBack, hlast]
      rw [hnone]
      exact ⟨past, hpast, hj⟩
    | some e =>
      obtain ⟨before, t, rfl, hundo, hback⟩ := hj.back hlast
      obtain ⟨vm, hstep, hsnap, hhist⟩ := hundo s.vm rfl hlast
      rw [hstep]
      refine ⟨before, by simp [hpast], ?_⟩
      change Journal.Journalled Undoes vm.history.limit vm.history.entries _ vm.snapshot
      rw [hsnap, hhist]
      exact hback
  | setHistoryLimit limit =>
    refine ⟨past, hpast, ?_⟩
    change Journal.Journalled Undoes limit (s.vm.history.setLimit limit).entries past _
    rw [History.setLimit_entries]
    exact hj.shrink limit
  | clearHistory => exact ⟨past, hpast, hj.forget List.nil_suffix (Nat.zero_le _)⟩

theorem Session.runAll_exact {s : Session} (h : s.Exact) (commands : List Command) :
    (s.runAll commands).Exact := by
  induction commands generalizing s with
  | nil => exact h
  | cons c commands ih => exact ih (Session.run_exact h c)

/-- Reverse execution is exact: the journal is a suffix of the micro-operations
executed and not undone, there is a step back to take as long as it is not
empty, and each step back restores what preceded the latest of them. -/
theorem reverse_exact (vm : MarieVMCore VecIo) (hempty : vm.history.entries = [])
    (commands : List Command) :
    let s := Session.runAll ⟨vm, []⟩ commands
    s.vm.history.entries.map Entry.microOp <:+ s.past.map Prod.snd ∧
    s.vm.history.entries.length ≤ s.vm.history.limit ∧
    ((∃ op vm', s.vm.microStepBack = (.ok op, vm')) ↔ s.vm.history.entries ≠ []) ∧
    ∀ op vm', s.vm.microStepBack = (.ok op, vm') →
      ∃ before, s.past = before ++ [(vm'.snapshot, op)] := by
  intro s
  have hstart : Session.Exact ⟨vm, []⟩ := by
    refine ⟨[], rfl, ?_⟩
    change Journal.Journalled Undoes vm.history.limit vm.history.entries [] vm.snapshot
    rw [hempty]
    exact .start _
  obtain ⟨past, hpast, hj⟩ := Session.runAll_exact hstart commands
  change s.past = _ at hpast
  change Journal.Journalled Undoes s.vm.history.limit s.vm.history.entries past s.vm.snapshot at hj
  refine ⟨?_, hj.bounded, ?_⟩
  · have hmap : s.past.map Prod.snd = (past.map Prod.snd).map Entry.microOp := by
      rw [hpast, List.map_map, List.map_map]
      rfl
    rw [hmap]
    exact hj.suffix.map _
  · cases hlast : s.vm.history.last with
    | none =>
      have hnone : s.vm.microStepBack = (.error .noHistory, s.vm) := by
        simp only [microStepBack, hlast]
      have hnil : s.vm.history.entries = [] := List.getLast?_eq_none_iff.mp hlast
      simp [hnone, hnil]
    | some e =>
      obtain ⟨before, t, rfl, hundo, -⟩ := hj.back hlast
      obtain ⟨vm', hstep, hsnap, -⟩ := hundo s.vm rfl hlast
      have hne : s.vm.history.entries ≠ [] := by
        intro hnil
        rw [History.last, hnil] at hlast
        cases hlast
      rw [hstep]
      refine ⟨⟨fun _ => hne, fun _ => ⟨_, _, rfl⟩⟩, ?_⟩
      rintro op w ⟨⟩
      exact ⟨before.map (fun p => (p.1, p.2.microOp)), by simp [hpast, hsnap]⟩

theorem reverse_exact_new :
    let s := Session.runAll ⟨MarieVMCore.new (VecIo.new [7]), []⟩
      [.setHistoryLimit 2, .microStep, .microStep, .microStep, .microStepBack]
    s.vm.history.entries.map Entry.microOp <:+ s.past.map Prod.snd ∧
    s.vm.history.entries.length ≤ s.vm.history.limit ∧
    ((∃ op vm', s.vm.microStepBack = (.ok op, vm')) ↔ s.vm.history.entries ≠ []) ∧
    ∀ op vm', s.vm.microStepBack = (.ok op, vm') →
      ∃ before, s.past = before ++ [(vm'.snapshot, op)] :=
  reverse_exact _ rfl _

end MarieVMCore

end MarieRs.Vm
