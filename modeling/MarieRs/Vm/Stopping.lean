import MarieRs.Vm.Api

namespace MarieRs.Vm

/-- What a run makes of the micro-operation that stopped it. -/
def RunOutcome.ofStop {D : Type} : MicroOutcome → MarieVMCore D → RunOutcome D
  | .halted, vm => .terminated vm
  | .awaitingInput, vm => .suspended vm .awaitingInput
  | .faulted fault, vm => .faulted vm fault
  | .panicked, vm | .executed _, vm => .panicked vm

namespace MarieVMCore

variable {D : Type} [MarieVmIODevice D]

/-- `n` micro-steps that all complete. -/
def microSteps : Nat → MarieVMCore D → Option (MarieVMCore D)
  | 0, vm => some vm
  | n + 1, vm =>
    match vm.microStep with
    | (.executed _, vm) => microSteps n vm
    | _ => none

/-- `n` micro-operations finish the instruction. -/
inductive Finishes : MarieVMCore D → Nat → MarieVMCore D → Prop where
  | last {vm vm' : MarieVMCore D} {op : MicroOp} (h : vm.microStep = (.executed op, vm'))
    (hz : vm'.microPc = 0) : Finishes vm 1 vm'
  | next {vm vm' after : MarieVMCore D} {op : MicroOp} {n : Nat}
    (h : vm.microStep = (.executed op, vm')) (hz : vm'.microPc ≠ 0)
    (hrest : Finishes vm' n after) : Finishes vm (n + 1) after

/-- `n` micro-operations succeed, and the one after them stops the instruction. -/
inductive StopsAfter : MarieVMCore D → Nat → MicroOutcome → MarieVMCore D → Prop where
  | now {vm vm' : MarieVMCore D} {stop : MicroOutcome} (h : vm.microStep = (stop, vm'))
    (hstop : ∀ op, stop ≠ .executed op) : StopsAfter vm 0 stop vm'
  | next {vm vm' after : MarieVMCore D} {op : MicroOp} {n : Nat} {stop : MicroOutcome}
    (h : vm.microStep = (.executed op, vm')) (hz : vm'.microPc ≠ 0)
    (hrest : StopsAfter vm' n stop after) : StopsAfter vm (n + 1) stop after

/-- `k` whole instructions, of `n` micro-operations in all; the first may have begun already. -/
inductive Instructions (vm : MarieVMCore D) : Nat → Nat → MarieVMCore D → Prop where
  | zero : Instructions vm 0 0 vm
  | succ {k n m : Nat} {s s' : MarieVMCore D} (h : Instructions vm k n s)
    (hfinishes : Finishes s m s') : Instructions vm (k + 1) (n + m) s'

/-- Why a run stops after `k` instructions, and with what. -/
inductive StopsHere (budget : Option Nat) (k : Nat) (s : MarieVMCore D) : RunOutcome D → Prop where
  | stepLimit (h : budget = some k) : StopsHere budget k s (.suspended s .stepLimit)
  | breakpoint (hlimit : budget ≠ some k) (hk : 1 ≤ k)
    (h : s.breakpoints.contains s.registers.pc = true) :
    StopsHere budget k s (.suspended s (.breakpoint s.registers.pc))
  | instruction {n : Nat} {stop : MicroOutcome} {vm : MarieVMCore D} (hlimit : budget ≠ some k)
    (hbreak : ¬(1 ≤ k ∧ s.breakpoints.contains s.registers.pc = true))
    (h : StopsAfter s n stop vm) : StopsHere budget k s (.ofStop stop vm)

theorem microSteps_succ {n : Nat} {vm vm' : MarieVMCore D} {op : MicroOp}
    (h : vm.microStep = (.executed op, vm')) : microSteps (n + 1) vm = microSteps n vm' := by
  rw [microSteps, h]

theorem microSteps_add {n m : Nat} {vm s : MarieVMCore D} (h : microSteps n vm = some s) :
    microSteps (n + m) vm = microSteps m s := by
  induction n generalizing vm with
  | zero =>
    cases h
    rw [Nat.zero_add]
  | succ n ih =>
    rw [microSteps] at h
    split at h
    · rename_i op vm' hs
      rw [Nat.add_right_comm, microSteps_succ hs]
      exact ih h
    · cases h

theorem Finishes.microSteps {vm s : MarieVMCore D} {n : Nat} (h : Finishes vm n s) :
    microSteps n vm = some s ∧ s.microPc = 0 := by
  induction h with
  | last h hz => exact ⟨microSteps_succ h, hz⟩
  | next h hz hrest ih => exact ⟨(microSteps_succ h).trans ih.1, ih.2⟩

theorem StopsAfter.microSteps {vm s : MarieVMCore D} {n : Nat} {stop : MicroOutcome}
    (h : StopsAfter vm n stop s) : (∀ op, stop ≠ .executed op) ∧
      ∃ t, microSteps n vm = some t ∧ t.microStep = (stop, s) ∧
        s = { t with ioDevice := s.ioDevice } := by
  induction h with
  | now h hstop => exact ⟨hstop, _, rfl, h, microStep_stop h hstop⟩
  | next h hz hrest ih =>
    obtain ⟨hstop, t, ht, hrest⟩ := ih
    exact ⟨hstop, t, (microSteps_succ h).trans ht, hrest⟩

theorem Instructions.microSteps {vm s : MarieVMCore D} {k n : Nat} (h : Instructions vm k n s) :
    microSteps n vm = some s ∧ (1 ≤ k → s.microPc = 0) := by
  induction h with
  | zero => exact ⟨rfl, fun hk => absurd hk (by omega)⟩
  | succ h hfinishes ih =>
    obtain ⟨hsteps, hz⟩ := hfinishes.microSteps
    exact ⟨(microSteps_add ih.1).trans hsteps, fun _ => hz⟩

theorem Finishes.unique {vm s s' : MarieVMCore D} {n n' : Nat} (h : Finishes vm n s)
    (h' : Finishes vm n' s') : n = n' ∧ s = s' := by
  induction h generalizing n' with
  | last h hz =>
    cases h' with
    | last h' hz' =>
      rw [h] at h'
      cases h'
      exact ⟨rfl, rfl⟩
    | next h' hz' hrest' =>
      rw [h] at h'
      cases h'
      exact absurd hz hz'
  | next h hz hrest ih =>
    cases h' with
    | last h' hz' =>
      rw [h] at h'
      cases h'
      exact absurd hz' hz
    | next h' hz' hrest' =>
      rw [h] at h'
      cases h'
      obtain ⟨rfl, rfl⟩ := ih hrest'
      exact ⟨rfl, rfl⟩

/-- There is one way to make `k` instructions. -/
theorem Instructions.unique {vm s s' : MarieVMCore D} {k n n' : Nat} (h : Instructions vm k n s)
    (h' : Instructions vm k n' s') : n = n' ∧ s = s' := by
  induction h generalizing n' s' with
  | zero =>
    cases h'
    exact ⟨rfl, rfl⟩
  | succ h hfinishes ih =>
    cases h' with
    | succ h' hfinishes' =>
      obtain ⟨rfl, rfl⟩ := ih h'
      obtain ⟨rfl, rfl⟩ := hfinishes.unique hfinishes'
      exact ⟨rfl, rfl⟩

theorem Finishes.step {vm s : MarieVMCore D} {n : Nat} (h : Finishes vm n s) :
    vm.step = (.continue_, s) := by
  induction h with
  | last h hz => exact step_boundary h hz
  | next h hz hrest ih => exact (step_inner h hz).trans ih

theorem StopsAfter.step {vm s : MarieVMCore D} {n : Nat} {stop : MicroOutcome}
    (h : StopsAfter vm n stop s) : vm.step = (Continuation.ofStop (some stop), s) := by
  induction h with
  | now h hstop => exact step_stop h hstop
  | next h hz hrest ih => exact (step_inner h hz).trans ih

theorem step_cases (vm : MarieVMCore D) :
    (∃ n s, Finishes vm n s) ∨ ∃ n stop s, StopsAfter vm n stop s := by
  induction hk : 10 - vm.microPc using Nat.strong_induction_on generalizing vm with
  | _ k ih =>
    rcases hs : vm.microStep with ⟨out, vm'⟩
    cases out with
    | executed op =>
      by_cases hz : vm'.microPc = 0
      · exact .inl ⟨1, vm', .last hs hz⟩
      · obtain ⟨hpc, hten⟩ := microStep_microPc hs hz
        rcases ih _ (by omega) vm' rfl with ⟨n, s, h⟩ | ⟨n, stop, s, h⟩
        · exact .inl ⟨n + 1, s, .next hs hz h⟩
        · exact .inr ⟨n + 1, stop, s, .next hs hz h⟩
    | halted | awaitingInput | faulted fault | panicked =>
      exact .inr ⟨0, _, vm', .now hs (by simp)⟩

/-- A pass that finds the budget not yet overdrawn. -/
def Within (budget : Option Nat) (k : Nat) : Prop := ∀ limit, budget = some limit → k ≤ limit

theorem Within.spent {budget : Option Nat} {k : Nat} (h : Within budget k) :
    budget.any (fun limit => decide (k ≥ limit)) = true ↔ budget = some k := by
  cases budget with
  | none => simp
  | some limit =>
    have hle := h limit rfl
    simp only [Option.any_some, decide_eq_true_eq, Option.some.injEq]
    omega

theorem Within.succ {budget : Option Nat} {k : Nat} (h : Within budget k)
    (hlimit : budget ≠ some k) : Within budget (k + 1) := by
  intro limit hlimit'
  have hle := h limit hlimit'
  have hne : limit ≠ k := fun heq => hlimit (heq ▸ hlimit')
  omega

omit [MarieVmIODevice D] in
theorem atBreakpoint_iff {k : Nat} {s : MarieVMCore D} (hz : 1 ≤ k → s.microPc = 0) :
    (k > 0 ∧ s.atBreakpoint = true) ↔ 1 ≤ k ∧ s.breakpoints.contains s.registers.pc = true := by
  refine and_congr_right fun hk => ?_
  rw [atBreakpoint, hz hk]
  rfl

/-- A stop ends the run. -/
theorem StopsHere.runPass {budget : Option Nat} {k : Nat} {s : MarieVMCore D}
    {outcome : RunOutcome D} (h : StopsHere budget k s outcome) (hwithin : Within budget k)
    (hz : 1 ≤ k → s.microPc = 0) : runPass budget k s = .inl outcome := by
  rw [MarieVMCore.runPass]
  cases h with
  | stepLimit hlimit => rw [if_pos (hwithin.spent.mpr hlimit)]
  | breakpoint hlimit hk hbreak =>
    rw [if_neg (mt hwithin.spent.mp hlimit), if_pos ((atBreakpoint_iff hz).mpr ⟨hk, hbreak⟩)]
  | @instruction n stop vm hlimit hbreak hstops =>
    rw [if_neg (mt hwithin.spent.mp hlimit), if_neg (mt (atBreakpoint_iff hz).mp hbreak),
      hstops.step]
    cases stop with
    | executed op => exact absurd rfl (hstops.microSteps.1 op)
    | halted | awaitingInput | faulted fault | panicked => rfl

/-- Either the run stops here, or it does one more instruction. -/
theorem runPass_cases {budget : Option Nat} {k : Nat} (s : MarieVMCore D)
    (hwithin : Within budget k) (hz : 1 ≤ k → s.microPc = 0) :
    (∃ outcome, StopsHere budget k s outcome) ∨
      ∃ m s', Finishes s m s' ∧ budget ≠ some k ∧ runPass budget k s = .inr s' := by
  by_cases hlimit : budget = some k
  · exact .inl ⟨_, .stepLimit hlimit⟩
  · by_cases hbreak : 1 ≤ k ∧ s.breakpoints.contains s.registers.pc = true
    · exact .inl ⟨_, .breakpoint hlimit hbreak.1 hbreak.2⟩
    · rcases s.step_cases with ⟨m, s', hfinishes⟩ | ⟨n, stop, vm, hstops⟩
      · refine .inr ⟨m, s', hfinishes, hlimit, ?_⟩
        rw [runPass, if_neg (mt hwithin.spent.mp hlimit),
          if_neg (mt (atBreakpoint_iff hz).mp hbreak), hfinishes.step]
      · exact .inl ⟨_, .instruction hlimit hbreak hstops⟩

/-- No run stops before `k` instructions are done. -/
def Clear (budget : Option Nat) (vm : MarieVMCore D) (k : Nat) : Prop :=
  ∀ j < k, ∀ n t, Instructions vm j n t → ∀ outcome, ¬StopsHere budget j t outcome

theorem Clear.within {budget : Option Nat} {vm s : MarieVMCore D} {k n : Nat}
    (h : Clear budget vm k) (hreach : Instructions vm k n s) : Within budget k := by
  induction hreach with
  | zero => exact fun _ _ => Nat.zero_le _
  | succ hreach hfinishes ih =>
    have hbefore : Clear budget vm _ := fun j hj => h j (Nat.lt_succ_of_lt hj)
    apply (ih hbefore).succ
    intro hlimit
    exact h _ (Nat.lt_succ_self _) _ _ hreach _ (.stepLimit hlimit)

/-- What is left of a run stops where the whole run does. -/
theorem stops_of_run {budget : Option Nat} {k n : Nat} {vm s : MarieVMCore D}
    {outcome : RunOutcome D} (hrun : RunInner budget k s outcome)
    (hreach : Instructions vm k n s) (hclear : Clear budget vm k) :
    ∃ k n s, Instructions vm k n s ∧ StopsHere budget k s outcome ∧ Clear budget vm k := by
  induction hrun generalizing n with
  | @ends k s outcome hpass =>
    have hwithin := hclear.within hreach
    have hz := hreach.microSteps.2
    rcases runPass_cases s hwithin hz with ⟨other, hstops⟩ | ⟨m, s', -, -, hgoes⟩
    · rw [hstops.runPass hwithin hz] at hpass
      cases hpass
      exact ⟨k, n, s, hreach, hstops, hclear⟩
    · rw [hpass] at hgoes
      cases hgoes
  | @goesOn k s next outcome hpass hrest ih =>
    have hwithin := hclear.within hreach
    have hz := hreach.microSteps.2
    rcases runPass_cases s hwithin hz with ⟨other, hstops⟩ | ⟨m, s', hfinishes, -, hgoes⟩
    · rw [hstops.runPass hwithin hz] at hpass
      cases hpass
    · rw [hpass] at hgoes
      cases hgoes
      refine ih (.succ hreach hfinishes) fun j hj n' t ht other hstops => ?_
      rcases Nat.lt_succ_iff_lt_or_eq.mp hj with hlt | rfl
      · exact hclear j hlt n' t ht other hstops
      · obtain ⟨rfl, rfl⟩ := hreach.unique ht
        rw [hstops.runPass hwithin hz] at hpass
        cases hpass

/-- A run comes to where it stops. -/
theorem run_of_rest {budget : Option Nat} {k n : Nat} {vm s : MarieVMCore D}
    {outcome : RunOutcome D} (hreach : Instructions vm k n s) (hclear : Clear budget vm k)
    (hrest : RunInner budget k s outcome) : Runs budget vm outcome := by
  induction hreach with
  | zero => exact hrest
  | @succ k n m s s' hreach hfinishes ih =>
    have hbefore : Clear budget vm k := fun j hj => hclear j (Nat.lt_succ_of_lt hj)
    have hz := hreach.microSteps.2
    apply ih hbefore
    rcases runPass_cases s (hbefore.within hreach) hz with ⟨other, hstops⟩ |
      ⟨m', next, hnext, -, hgoes⟩
    · exact absurd hstops (hclear k (Nat.lt_succ_self k) n s hreach other)
    · obtain ⟨-, rfl⟩ := hfinishes.unique hnext
      exact .goesOn hgoes hrest

/-- A run stops after the least number of instructions at which the budget is spent, a
breakpoint is met or the next instruction stops, and it is as many micro-steps as that. -/
theorem run_stops (budget : Option Nat) (vm : MarieVMCore D) (outcome : RunOutcome D) :
    (Runs budget vm outcome ↔ ∃ k n s, Instructions vm k n s ∧ StopsHere budget k s outcome ∧
      ∀ j < k, ∀ n t, Instructions vm j n t → ∀ other, ¬StopsHere budget j t other) ∧
    (∀ k n s, Instructions vm k n s →
      microSteps n vm = some s ∧ (1 ≤ k → s.microPc = 0)) ∧
    ∀ (s : MarieVMCore D) n stop after, StopsAfter s n stop after → ∃ t, microSteps n s = some t ∧
      t.microStep = (stop, after) ∧ after = { t with ioDevice := after.ioDevice } := by
  refine ⟨⟨fun hrun => ?_, ?_⟩, fun k n s h => h.microSteps, fun s n stop after h =>
    h.microSteps.2⟩
  · have hclear : Clear budget vm 0 := fun j hj => absurd hj (Nat.not_lt_zero j)
    exact stops_of_run hrun .zero hclear
  · rintro ⟨k, n, s, hreach, hstops, hclear⟩
    have hclear : Clear budget vm k := hclear
    have hwithin := hclear.within hreach
    exact run_of_rest hreach hclear (.ends (hstops.runPass hwithin hreach.microSteps.2))

end MarieVMCore

end MarieRs.Vm
