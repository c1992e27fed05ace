import MarieRs.Lib.Journal
import MarieRs.Vm.Cycle

namespace MarieRs.Vm

open Lib
open MarieVmIODevice

/-- What a view of a device shows: nothing of a call that did not go through or of the picture,
and after a rewind what it showed before. -/
structure Rewinds {D V : Type} [MarieVmIODevice D] (view : D → V) : Prop where
  pollStopped : ∀ device : D, (∀ value, (pollInput device).1 ≠ .ready (.ok value)) →
    view (pollInput device).2 = view device
  outputStopped : ∀ (device : D) value, (output device value).1 ≠ .ok () →
    view (output device value).2 = view device
  unread : ∀ (device other after : D) value, pollInput device = (.ready (.ok value), after) →
    view other = view after →
    view (unreadInput other value).2 =
      if (unreadInput other value).1 then view device else view other
  unwrite : ∀ (device other after : D) value, output device value = (.ok (), after) →
    view other = view after →
    view (unwriteOutput other value).2 =
      if (unwriteOutput other value).1 then view device else view other
  display : ∀ (device : D) index pixel, view (displayWrite device index pixel) = view device

/-- A device that takes back whatever it has handed over or accepted last. -/
structure Willing {D V : Type} [MarieVmIODevice D] (view : D → V) : Prop where
  unread : ∀ (device other after : D) value, pollInput device = (.ready (.ok value), after) →
    view other = view after → (unreadInput other value).1 = true
  unwrite : ∀ (device other after : D) value, output device value = (.ok (), after) →
    view other = view after → (unwriteOutput other value).1 = true

/-- Devices that look alike answer alike. -/
structure Repeats {D V : Type} [MarieVmIODevice D] (view : D → V) : Prop where
  poll : ∀ device other : D, view device = view other →
    (pollInput device).1 = (pollInput other).1 ∧
      view (pollInput device).2 = view (pollInput other).2
  output : ∀ (device other : D) value, view device = view other →
    (output device value).1 = (output other value).1 ∧
      view (output device value).2 = view (output other value).2

namespace MarieVMCore

/-- Everything a micro-operation can change. -/
structure Snapshot (D : Type) where
  datapath : Datapath D
  microPc : Nat

variable {D V : Type} {view : D → V}

def snapshot (vm : MarieVMCore D) : Snapshot D := ⟨vm.datapath, vm.microPc⟩

/-- Reversing the effect `e`, given a device that rewinds. -/
def revert [MarieVmIODevice D] (vm : MarieVMCore D) : Effect → Option (MarieVMCore D)
  | .none => some vm
  | .register register previous =>
    some { vm with registers := vm.registers.write register previous }
  | .memory address previous =>
    some (notifyDisplay { vm with memory := Function.update vm.memory address previous }
      address (vm.memory address) previous)
  | .inputRead previous value =>
    match MarieVmIODevice.unreadInput vm.ioDevice value with
    | (false, _) => none
    | (true, device) =>
      some { vm with ioDevice := device, registers := vm.registers.write .in_ previous }
  | .outputWritten value =>
    match MarieVmIODevice.unwriteOutput vm.ioDevice value with
    | (false, _) => none
    | (true, device) => some { vm with ioDevice := device }

/-- Stepping back is reverting the effect and restoring the control state. -/
theorem microStepBack_of_revert [MarieVmIODevice D] {vm core : MarieVMCore D} {entry : Entry}
    (hlast : vm.history.last = some entry) (hcore : vm.revert entry.effect = some core) :
    vm.microStepBack =
      (.ok entry.microOp, { core.restore entry.control with history := core.history.pop }) := by
  obtain ⟨control, op, effect⟩ := entry
  simp only [microStepBack, hlast]
  cases effect <;> simp only [revert] at hcore ⊢
  case inputRead previous value =>
    rcases hdevice : MarieVmIODevice.unreadInput vm.ioDevice value with ⟨accepted, device⟩
    rw [hdevice] at hcore
    cases accepted <;> cases hcore
    rfl
  case outputWritten value =>
    rcases hdevice : MarieVmIODevice.unwriteOutput vm.ioDevice value with ⟨accepted, device⟩
    rw [hdevice] at hcore
    cases accepted <;> cases hcore
    rfl
  all_goals
    cases hcore
    rfl

theorem record_entries (h : History) (e : Entry) :
    (h.record e).entries = Journal.append h.limit h.entries e ∧ (h.record e).limit = h.limit := by
  unfold History.record Journal.append
  split
  · exact ⟨rfl, rfl⟩
  · split <;> exact ⟨rfl, rfl⟩

/-- Everything a micro-operation can change, with the device as the view shows it. -/
def seen (view : D → V) (vm : MarieVMCore D) : Snapshot V where
  datapath :=
    { registers := vm.registers
      memory := vm.memory
      ioDevice := view vm.ioDevice
      decoded := vm.decoded
      instructionAddress := vm.instructionAddress
      comparison := vm.comparison }
  microPc := vm.microPc

/-- Machines that look alike differ in their device, breakpoints and journal only. -/
theorem eq_of_seen {v w : MarieVMCore D} (h : v.seen view = w.seen view) :
    w = { v with
      ioDevice := w.ioDevice, breakpoints := w.breakpoints, history := w.history } ∧
    view w.ioDevice = view v.ioDevice := by
  simp only [seen, Snapshot.mk.injEq, Datapath.mk.injEq] at h
  obtain ⟨⟨hregisters, hmemory, hdevice, hdecoded, haddress, hcomparison⟩, hmicroPc⟩ := h
  refine ⟨?_, hdevice.symm⟩
  simp [hregisters, hmemory, hdecoded, haddress, hcomparison, hmicroPc]

section Device
variable [MarieVmIODevice D]

theorem displayed_view (hrewinds : Rewinds view) (device : D) (address : MemoryAddress)
    (previous current : Word) : view (displayed device address previous current) = view device := by
  unfold displayed
  split
  · rfl
  · split
    · exact hrewinds.display _ _ _
    · rfl

/-- An entry leads any machine that looks like `t` back to one that looks like `s`, if the
device is willing; otherwise the machine goes on looking like `t`. -/
def Leads (view : D → V) (e : Entry) (t s : Snapshot V) : Prop :=
  ∀ vm : MarieVMCore D, vm.seen view = t → vm.history.last = some e →
    (∃ vm', vm.microStepBack = (.ok e.microOp, vm') ∧ vm'.seen view = s ∧
      vm'.history = vm.history.pop) ∨
    ∃ error vm', vm.microStepBack = (.error error, vm') ∧ error ≠ .noHistory ∧
      vm'.seen view = t ∧ vm'.history = vm.history ∧ ¬Willing view

omit [MarieVmIODevice D] in
theorem restored_seen (vm w : MarieVMCore D) (hregisters : w.registers = vm.registers)
    (hmemory : w.memory = vm.memory) (hdevice : view w.ioDevice = view vm.ioDevice)
    (history : History) :
    ({ w.restore vm.control with history } : MarieVMCore D).seen view = vm.seen view := by
  simp only [seen, restore, control, hregisters, hmemory, hdevice]

/-- An operation that exchanged nothing with the device is reverted whatever the device. -/
theorem revert_execute_view (hrewinds : Rewinds view) {vm core w : MarieVMCore D} {op : MicroOp}
    {effect : Effect} (he : vm.executeMicroOp op = (.ok effect, core)) (hread : op ≠ .readInput)
    (hwrite : op ≠ .writeOutput) (hregisters : w.registers = core.registers)
    (hmemory : w.memory = core.memory) :
    view core.ioDevice = view vm.ioDevice ∧ ∃ back, w.revert effect = some back ∧
      back.registers = vm.registers ∧ back.memory = vm.memory ∧
      view back.ioDevice = view w.ioDevice ∧ back.history = w.history := by
  cases op <;> simp only [executeMicroOp, executeMicroOp.done, writeRegister, writeMemory_eq] at he
  case readInput => exact absurd rfl hread
  case writeOutput => exact absurd rfl hwrite
  case writeMemory =>
    cases he
    refine ⟨displayed_view hrewinds _ _ _ _, _, rfl, ?_⟩
    simp [notifyDisplay_eq, displayed_view hrewinds, hregisters, hmemory]
  all_goals
    repeat' split at he
    all_goals first
      | cases he
        refine ⟨rfl, _, rfl, ?_⟩
        simp [hregisters, hmemory]
      | cases he

/-- What is journalled for an operation leads back. -/
theorem execute_leads (hrewinds : Rewinds view) {vm core : MarieVMCore D} {op : MicroOp}
    {effect : Effect} (he : vm.beginInstruction.executeMicroOp op = (.ok effect, core)) :
    Leads view ⟨vm.control, op, effect⟩
      ((advanceMicroPc (core.record ⟨vm.control, op, effect⟩)).seen view) (vm.seen view) := by
  intro w hw hlast
  obtain ⟨hsame, hdevice⟩ := eq_of_seen hw.symm
  have hregisters : w.registers = core.registers := by rw [hsame]; rfl
  have hmemory : w.memory = core.memory := by rw [hsame]; rfl
  have hview : view w.ioDevice = view core.ioDevice := hdevice
  rw [begin_frame] at he
  have hkept : ∀ device : D, view device = view w.ioDevice →
      ({ w with ioDevice := device } : MarieVMCore D).seen view = w.seen view := by
    intro device hlike
    simp only [seen, hlike]
  by_cases hread : op = .readInput
  · subst hread
    simp only [executeMicroOp] at he
    split at he
    · cases he
    · cases he
    · rename_i value device hpoll
      cases he
      have hrestored := hrewinds.unread _ w.ioDevice device value hpoll hview
      have hwilling : Willing view → (unreadInput w.ioDevice value).1 = true := fun hwilling =>
        hwilling.unread _ w.ioDevice device value hpoll hview
      rcases hunread : unreadInput w.ioDevice value with ⟨accepted, after⟩
      rw [hunread] at hrestored hwilling
      simp only [microStepBack, hlast, hunread]
      cases accepted with
      | true =>
        have hback : w.registers.write .in_ (vm.registers.read .in_) = vm.registers := by
          simp [hregisters]
        exact .inl ⟨_, rfl, restored_seen vm { w with
          ioDevice := after, registers := w.registers.write .in_ (vm.registers.read .in_) }
          hback hmemory hrestored _, rfl⟩
      | false =>
        refine .inr ⟨_, _, rfl, by decide, (hkept after hrestored).trans hw, rfl, fun h => ?_⟩
        cases hwilling h
  · by_cases hwrite : op = .writeOutput
    · subst hwrite
      simp only [executeMicroOp] at he
      split at he
      · cases he
      · rename_i device hout
        cases he
        have hrestored := hrewinds.unwrite _ w.ioDevice device _ hout hview
        have hwilling : Willing view → (unwriteOutput w.ioDevice vm.registers.output).1 = true :=
          fun hwilling => hwilling.unwrite _ w.ioDevice device _ hout hview
        rcases hunwrite : unwriteOutput w.ioDevice vm.registers.output with ⟨accepted, after⟩
        rw [hunwrite] at hrestored hwilling
        simp only [microStepBack, hlast, hunwrite]
        cases accepted with
        | true =>
          exact .inl ⟨_, rfl, restored_seen vm { w with ioDevice := after } hregisters hmemory
            hrestored _, rfl⟩
        | false =>
          refine .inr ⟨_, _, rfl, by decide, (hkept after hrestored).trans hw, rfl, fun h => ?_⟩
          cases hwilling h
    · obtain ⟨hcoreView, back, hback, hbackRegisters, hbackMemory, hbackView, hbackHistory⟩ :=
        revert_execute_view hrewinds he hread hwrite hregisters hmemory
      refine .inl ⟨_, microStepBack_of_revert hlast hback, ?_, congrArg History.pop hbackHistory⟩
      exact restored_seen vm back hbackRegisters hbackMemory
        (hbackView.trans (hview.trans hcoreView)) _

/-- What is journalled for an executed micro-operation leads back. -/
theorem microStep_leads (hrewinds : Rewinds view) {vm vm' : MarieVMCore D} {op : MicroOp}
    (h : vm.microStep = (.executed op, vm')) :
    ∃ e : Entry, e.microOp = op ∧ vm'.history = vm.history.record e ∧
      Leads view e (vm'.seen view) (vm.seen view) := by
  obtain ⟨-, effect, core, he, rfl⟩ := microStep_executed h
  have hhistory : core.history = vm.history := by
    rw [(execute_frame he).2.1, begin_frame]
  exact ⟨⟨vm.control, op, effect⟩, rfl, by rw [← hhistory]; rfl, execute_leads hrewinds he⟩

theorem execute_error_view (hrewinds : Rewinds view) {vm vm' : MarieVMCore D} {op : MicroOp}
    {stop : MicroOutcome} (h : vm.executeMicroOp op = (.error stop, vm')) :
    view vm'.ioDevice = view vm.ioDevice := by
  cases op <;> simp only [executeMicroOp, executeMicroOp.done] at h
  case readInput =>
    have hstopped := hrewinds.pollStopped vm.ioDevice
    split at h
    · rename_i hpoll
      rw [hpoll] at hstopped
      cases h
      exact hstopped (by simp)
    · rename_i hpoll
      rw [hpoll] at hstopped
      cases h
      exact hstopped (by simp)
    · cases h
  case writeOutput =>
    have hstopped := hrewinds.outputStopped vm.ioDevice vm.registers.output
    split at h
    · rename_i hout
      rw [hout] at hstopped
      cases h
      exact hstopped (by simp)
    · cases h
  all_goals
    repeat' split at h
    all_goals first
      | cases h
        rfl
      | cases h

/-- A stop is not to be seen. -/
theorem microStep_stop_seen (hrewinds : Rewinds view) {vm : MarieVMCore D}
    (hstop : ∀ op, vm.microStep.1 ≠ .executed op) :
    vm.microStep.2.seen view = vm.seen view ∧ vm.microStep.2.history = vm.history := by
  have hdevice : view vm.microStep.2.ioDevice = view vm.ioDevice := by
    cases hop : vm.currentMicroOp with
    | none =>
      simp only [microStep, begin_currentMicroOp, hop]
      rw [begin_frame]
    | some op =>
      rcases he : vm.beginInstruction.executeMicroOp op with ⟨result, core⟩
      cases result with
      | ok effect =>
        rw [microStep_of_execute hop he] at hstop
        exact absurd rfl (hstop op)
      | error stop =>
        rw [microStep_of_error hop he]
        have hcore := execute_error_view hrewinds he
        rw [begin_frame] at hcore
        exact hcore
  rcases hs : vm.microStep with ⟨stop, vm'⟩
  rw [hs] at hdevice hstop
  have hsame : vm' = { vm with ioDevice := vm'.ioDevice } := microStep_stop hs hstop
  refine ⟨?_, by rw [hsame]⟩
  rw [hsame]
  simp only [seen, hdevice]

theorem rewinds_vecIo : Rewinds fun device : VecIo => device where
  pollStopped := by
    rintro ⟨inputs, outputs⟩ hstopped
    cases inputs with
    | nil => rfl
    | cons value rest => exact absurd rfl (hstopped value)
  outputStopped := fun device value hstopped => absurd rfl hstopped
  unread := by
    rintro ⟨inputs, outputs⟩ other after value hpoll rfl
    cases inputs with
    | nil => cases hpoll
    | cons value rest =>
      cases hpoll
      rfl
  unwrite := by
    rintro ⟨inputs, outputs⟩ other after value hout rfl
    cases hout
    simp [unwriteOutput, VecIo.unwriteOutput]
  display := fun _ _ _ => rfl

theorem willing_vecIo : Willing fun device : VecIo => device where
  unread := fun _ _ _ _ _ _ => rfl
  unwrite := by
    rintro ⟨inputs, outputs⟩ other after value hout rfl
    cases hout
    simp [unwriteOutput, VecIo.unwriteOutput]

theorem repeats_vecIo : Repeats fun device : VecIo => device where
  poll := by
    rintro device _ rfl
    exact ⟨rfl, rfl⟩
  output := by
    rintro device _ value rfl
    exact ⟨rfl, rfl⟩

end Device

end MarieVMCore

end MarieRs.Vm
