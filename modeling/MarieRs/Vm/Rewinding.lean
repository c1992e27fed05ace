import MarieRs.Vm.Reverse
import MarieRs.Vm.Safety
import MarieRs.Vm.Stopping

namespace MarieRs.Vm

open Lib
open MarieVmIODevice

namespace MarieVMCore

variable {D V : Type} {view : D → V}

section Device
variable [MarieVmIODevice D]

/-- A micro-step forward, as far as it is seen. -/
def Forward (view : D → V) (op : MicroOp) (s t : Snapshot V) : Prop :=
  ∃ vm vm' : MarieVMCore D, vm.seen view = s ∧ vm.microStep = (.executed op, vm') ∧
    vm'.seen view = t

/-- A micro-step forward under an entry that leads back. -/
def Links (view : D → V) (e : Entry) (t s : Snapshot V) : Prop :=
  Forward view e.microOp s t ∧ Leads view e t s

/-- Steps forward and back from `start`, with what was executed and not undone since, each with
what the machine looked like before it. In between the journal may be cut and the device may
change as long as that is not seen. -/
inductive Stepped (view : D → V) (start : MarieVMCore D) :
    List (Snapshot V × MicroOp) → MarieVMCore D → Prop where
  | start : Stepped view start [] start
  | forward {past : List (Snapshot V × MicroOp)} {vm vm' : MarieVMCore D} {op : MicroOp}
    (h : Stepped view start past vm) (hs : vm.microStep = (.executed op, vm')) :
    Stepped view start (past ++ [(vm.seen view, op)]) vm'
  | stopped {past : List (Snapshot V × MicroOp)} {vm : MarieVMCore D}
    (h : Stepped view start past vm) (hstop : ∀ op, vm.microStep.1 ≠ .executed op) :
    Stepped view start past vm.microStep.2
  | back {past : List (Snapshot V × MicroOp)} {last : Snapshot V × MicroOp}
    {vm vm' : MarieVMCore D} {op : MicroOp} (h : Stepped view start (past ++ [last]) vm)
    (hs : vm.microStepBack = (.ok op, vm')) : Stepped view start past vm'
  | refused {past : List (Snapshot V × MicroOp)} {last : Snapshot V × MicroOp}
    {vm vm' : MarieVMCore D} {error : StepBackError} (h : Stepped view start (past ++ [last]) vm)
    (hs : vm.microStepBack = (.error error, vm')) : Stepped view start (past ++ [last]) vm'
  | setHistoryLimit {past : List (Snapshot V × MicroOp)} {vm : MarieVMCore D} (limit : Nat)
    (h : Stepped view start past vm) : Stepped view start past (vm.setHistoryLimit limit)
  | clearHistory {past : List (Snapshot V × MicroOp)} {vm : MarieVMCore D}
    (h : Stepped view start past vm) : Stepped view start past vm.clearHistory
  | breakpoints {past : List (Snapshot V × MicroOp)} {vm : MarieVMCore D} (set : BreakpointSet)
    (h : Stepped view start past vm) : Stepped view start past { vm with breakpoints := set }
  | device {past : List (Snapshot V × MicroOp)} {vm : MarieVMCore D} (device : D)
    (hdevice : view device = view vm.ioDevice) (h : Stepped view start past vm) :
    Stepped view start past { vm with ioDevice := device }

/-- The micro-operations of a past that is known with its journal entries. -/
def performed (links : List (Snapshot V × Entry)) : List (Snapshot V × MicroOp) :=
  links.map fun link => (link.1, link.2.microOp)

/-- The journal is accurate about the past. -/
def Exact (view : D → V) (start : MarieVMCore D) (past : List (Snapshot V × MicroOp))
    (vm : MarieVMCore D) : Prop :=
  ∃ links, past = performed links ∧
    Journal.Continued (Links view) vm.history.limit start.history.entries (start.seen view)
      vm.history.entries links (vm.seen view)

theorem performed_concat {links : List (Snapshot V × Entry)}
    {past : List (Snapshot V × MicroOp)} {last : Snapshot V × MicroOp}
    (h : past ++ [last] = performed links) :
    ∃ before s e, links = before ++ [(s, e)] ∧ past = performed before ∧ last = (s, e.microOp) := by
  rcases List.eq_nil_or_concat' links with rfl | ⟨before, ⟨s, e⟩, rfl⟩
  · cases past <;> cases h
  · rw [performed, List.map_append, List.map_singleton] at h
    obtain ⟨hpast, hlast⟩ := List.append_inj' h rfl
    exact ⟨before, s, e, rfl, hpast, (List.cons.inj hlast).1⟩

/-- A step back in a session undoes the latest micro-operation, or the machine goes on looking
as it did. -/
theorem Exact.back {start vm : MarieVMCore D} {past : List (Snapshot V × MicroOp)}
    {last : Snapshot V × MicroOp} (h : Exact view start (past ++ [last]) vm) :
    (∃ op vm', vm.microStepBack = (.ok op, vm') ∧ last = (vm'.seen view, op) ∧
      vm'.history = vm.history.pop ∧ Forward view op (vm'.seen view) (vm.seen view) ∧
      Exact view start past vm') ∨
    (∃ error vm', vm.microStepBack = (.error error, vm') ∧ error ≠ .noHistory ∧
      vm'.seen view = vm.seen view ∧ vm'.history = vm.history ∧ ¬Willing view) ∨
    vm.microStepBack = (.error .noHistory, vm) ∧ vm.history.entries = [] := by
  obtain ⟨links, hpast, hexact⟩ := h
  obtain ⟨before, s, e, rfl, rfl, rfl⟩ := performed_concat hpast
  cases hlast : vm.history.last with
  | none =>
    have hnil : vm.history.entries = [] := List.getLast?_eq_none_iff.mp hlast
    refine .inr (.inr ⟨?_, hnil⟩)
    simp only [microStepBack, hlast]
  | some entry =>
    obtain ⟨rfl, hlinks, hback⟩ := hexact.back hlast
    rcases hlinks.2 vm rfl hlast with ⟨vm', hs, hseen, hhistory⟩ | hrefused
    · refine .inl ⟨_, vm', hs, by rw [hseen], hhistory, ?_, before, rfl, ?_⟩
      · rw [hseen]
        exact hlinks.1
      · rw [hseen, hhistory]
        exact hback
    · exact .inr (.inl hrefused)

theorem Exact.congr {start vm vm' : MarieVMCore D} {past : List (Snapshot V × MicroOp)}
    (h : Exact view start past vm) (hseen : vm'.seen view = vm.seen view)
    (hkept : vm'.history.entries <:+ vm.history.entries)
    (hlimit : vm'.history.entries.length ≤ vm'.history.limit) : Exact view start past vm' := by
  obtain ⟨links, rfl, hexact⟩ := h
  refine ⟨links, rfl, ?_⟩
  rw [hseen]
  exact hexact.forget hkept hlimit

theorem Exact.bounded {start vm : MarieVMCore D} {past : List (Snapshot V × MicroOp)}
    (h : Exact view start past vm) : vm.history.entries.length ≤ vm.history.limit := by
  obtain ⟨links, -, hexact⟩ := h
  exact hexact.bounded

/-- The journal of every session is accurate. -/
theorem Stepped.exact (hrewinds : Rewinds view) {start vm : MarieVMCore D}
    (hbounded : start.history.entries.length ≤ start.history.limit)
    {past : List (Snapshot V × MicroOp)} (h : Stepped view start past vm) :
    Exact view start past vm := by
  induction h with
  | start => exact ⟨[], rfl, .start hbounded⟩
  | @forward past vm vm' op h hs ih =>
    obtain ⟨links, rfl, hexact⟩ := ih
    obtain ⟨e, rfl, hhistory, hleads⟩ := microStep_leads hrewinds hs
    obtain ⟨hentries, hlimit⟩ := record_entries vm.history e
    refine ⟨links ++ [(vm.seen view, e)], by simp [performed], ?_⟩
    rw [hhistory, hentries, hlimit]
    exact hexact.append ⟨⟨vm, vm', rfl, hs, rfl⟩, hleads⟩
  | stopped h hstop ih =>
    obtain ⟨hseen, hhistory⟩ := microStep_stop_seen hrewinds hstop
    refine ih.congr hseen ?_ ?_
    · rw [hhistory]
    · rw [hhistory]
      exact ih.bounded
  | back h hs ih =>
    rcases ih.back with ⟨op', vm', hok, -, -, -, hexact⟩ | ⟨error, vm', herror, -⟩ | ⟨hnone, -⟩
    · rw [hs] at hok
      cases hok
      exact hexact
    · rw [hs] at herror
      cases herror
    · rw [hs] at hnone
      cases hnone
  | refused h hs ih =>
    rcases ih.back with ⟨op', vm', hok, -⟩ | ⟨error, vm', herror, -, hseen, hhistory, -⟩ |
      ⟨hnone, -⟩
    · rw [hs] at hok
      cases hok
    · rw [hs] at herror
      cases herror
      refine ih.congr hseen ?_ ?_
      · rw [hhistory]
      · rw [hhistory]
        exact ih.bounded
    · rw [hs] at hnone
      cases hnone
      exact ih
  | @setHistoryLimit past vm limit h ih =>
    have hentries := vm.history.setLimit_entries limit
    refine ih.congr rfl ?_ ?_
    · change (vm.history.setLimit limit).entries <:+ _
      rw [hentries]
      exact List.drop_suffix _ _
    · change (vm.history.setLimit limit).entries.length ≤ limit
      rw [hentries, List.length_drop]
      omega
  | clearHistory h ih => exact ih.congr rfl List.nil_suffix (Nat.zero_le _)
  | breakpoints set h ih => exact ih.congr rfl List.suffix_rfl ih.bounded
  | @device past vm device hdevice h ih =>
    exact ih.congr (by simp only [seen, hdevice]) List.suffix_rfl ih.bounded

/-- Every call keeps the journal within its limit. -/
theorem Call.bounded {state state' : MarieVmState} {vm vm' : MarieVMCore D}
    (hcall : Call state vm state' vm') (h : vm.history.entries.length ≤ vm.history.limit) :
    vm'.history.entries.length ≤ vm'.history.limit := by
  have hmicro : ∀ vm : MarieVMCore D, vm.history.entries.length ≤ vm.history.limit →
      vm.microStep.2.history.entries.length ≤ vm.microStep.2.history.limit := by
    intro vm h
    rcases hs : vm.microStep with ⟨out, vm'⟩
    rcases microStep_cases hs with ⟨op, effect, core, rfl, -, he, rfl⟩ | ⟨-, hsame⟩
    · have hhistory : core.history = vm.history := by
        rw [(execute_frame he).2.1, begin_frame]
      apply History.record_bounded
      rw [hhistory]
      exact h
    · rw [hsame]
      exact h
  have hback : ∀ vm : MarieVMCore D, vm.history.entries.length ≤ vm.history.limit →
      vm.microStepBack.2.history.entries.length ≤ vm.microStepBack.2.history.limit := by
    intro vm h
    rcases vm.microStepBack_cases with ⟨entry, -, -, -, hpop⟩ | ⟨error, -, hsame⟩
    · rw [hpop]
      exact (List.dropLast_sublist _).length_le.trans h
    · rw [hsame]
      exact h
  cases hcall with
  | flashProgram | reset | resetTerminated | clearHistory => exact Nat.zero_le _
  | loadProgram hload =>
    simp only [MarieVMCore.loadProgram] at hload
    split at hload
    · cases hload
    · cases hload
      exact Nat.zero_le _
  | boot | debug | pause | resume | debugTerminated => exact h
  | flashMemory | registersMut | memoryMut | ioMut | breakpointsMut => exact h
  | run hrun => exact run_keeps hmicro hrun h
  | step => exact step_keeps hmicro h
  | microStep => exact hmicro vm h
  | microStepBack => exact hback vm h
  | stepBack => exact stepBack_keeps hback h
  | setHistoryLimit _ _ limit =>
    change (vm.history.setLimit limit).entries.length ≤ limit
    rw [History.setLimit_entries, List.length_drop]
    omega

theorem Reachable.bounded {state : MarieVmState} {vm : MarieVMCore D} (h : Reachable state vm) :
    vm.history.entries.length ≤ vm.history.limit := by
  induction h with
  | new ioDevice => exact Nat.zero_le _
  | call _ hcall ih => exact hcall.bounded ih

/-- A session keeps the control unit sound. -/
theorem Stepped.sound {start vm : MarieVMCore D} {past : List (Snapshot V × MicroOp)}
    (h : Stepped view start past vm) (hstart : Sound start) : Sound vm := by
  induction h with
  | start => exact hstart
  | forward h hs ih =>
    have hnext := ih.microStep
    rw [hs] at hnext
    exact hnext
  | stopped h hstop ih => exact ih.microStep
  | back h hs ih | refused h hs ih =>
    have hnext := ih.microStepBack
    rw [hs] at hnext
    exact hnext
  | setHistoryLimit limit h ih => exact (Call.setHistoryLimit .stepping _ limit).sound ih
  | clearHistory h ih => exact (Call.clearHistory .stepping _).sound ih
  | breakpoints set h ih => exact ⟨ih.control, ih.journal⟩
  | device device hdevice h ih => exact ⟨ih.control, ih.journal⟩

theorem forward_toStart {v vm : MarieVMCore D} {op : MicroOp}
    (hforward : Forward view op (v.seen view) (vm.seen view)) (hcycle : v.control.InCycle) :
    vm.toStart = v.microPc + 1 := by
  obtain ⟨u, u', hu, hs, hu'⟩ := hforward
  obtain ⟨hbefore, -⟩ := eq_of_seen hu.symm
  obtain ⟨hafter, -⟩ := eq_of_seen hu'
  have hinside : u.control.InCycle := by
    rw [hbefore]
    exact hcycle
  have hnext := microStep_toStart hs hinside
  have hmicroPc : u.microPc = v.microPc := by rw [hbefore]
  rw [← hmicroPc, ← hnext, hafter]
  rfl

theorem Stepped.microStep {start vm : MarieVMCore D} {past : List (Snapshot V × MicroOp)}
    (h : Stepped view start past vm) : ∃ past, Stepped view start past vm.microStep.2 := by
  rcases hs : vm.microStep with ⟨out, vm'⟩
  rcases microStep_cases hs with ⟨op, effect, core, rfl, -⟩ | ⟨hstop, -⟩
  · exact ⟨_, h.forward hs⟩
  · have hstopped : Stepped view start past vm.microStep.2 := by
      apply h.stopped
      rw [hs]
      exact hstop
    rw [hs] at hstopped
    exact ⟨past, hstopped⟩

theorem Stepped.step {start vm : MarieVMCore D} {past : List (Snapshot V × MicroOp)}
    (h : Stepped view start past vm) : ∃ past, Stepped view start past vm.step.2 := by
  apply step_keeps (P := fun vm => ∃ past, Stepped view start past vm)
  · rintro vm ⟨past, h⟩
    exact h.microStep
  · exact ⟨past, h⟩

end Device

end MarieVMCore

end MarieRs.Vm
