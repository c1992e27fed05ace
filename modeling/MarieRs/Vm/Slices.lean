import MarieRs.Vm.Run

namespace MarieRs.Vm.MarieVMCore

variable {D : Type} [MarieVmIODevice D]

/-- Takes one instruction of a run; `rest` says how the run goes on after it. -/
def afterStep (vm : MarieVMCore D) (rest : MarieVMCore D → RunOutcome D) : RunOutcome D :=
  match vm.step with
  | (.continue_, vm) => rest vm
  | (.halted, vm) => .terminated vm
  | (.awaitingInput, vm) => .suspended vm .awaitingInput
  | (.faulted fault, vm) => .faulted vm fault
  | (.panicked, vm) => .panicked vm

/-- What a run still does with `left` instructions to go, once its first
instruction is behind it and breakpoints count. -/
def runRest : Nat → MarieVMCore D → RunOutcome D
  | 0, vm => .suspended vm .stepLimit
  | left + 1, vm =>
    if vm.atBreakpoint then .suspended vm (.breakpoint vm.registers.pc)
    else vm.afterStep (runRest left)

/-- `k` instructions that all complete, with no stop looked for between them. -/
def stepsTo : Nat → MarieVMCore D → Option (MarieVMCore D)
  | 0, vm => some vm
  | k + 1, vm =>
    match vm.step with
    | (.continue_, vm) => stepsTo k vm
    | _ => none

theorem runInner_rest {limit executed : Nat} (vm : MarieVMCore D) (hpos : 0 < executed)
    (hle : executed ≤ limit) : runInner limit executed vm = runRest (limit - executed) vm := by
  induction hn : limit - executed generalizing executed vm with
  | zero =>
    rw [runInner_eq, runPass, if_pos (by simp; omega)]
    rfl
  | succ left ih =>
    rw [runInner_eq, runPass, if_neg (by simp; omega), runRest]
    by_cases hb : vm.atBreakpoint
    · rw [if_pos ⟨hpos, hb⟩, if_pos hb]
    · rw [if_neg (fun h => hb h.2), if_neg hb, afterStep]
      cases hs : vm.step with
      | mk c vm' =>
        cases c with
        | continue_ => exact ih vm' (by omega) (by omega) (by omega)
        | _ => rfl

/-- A call with a budget takes its first instruction unconditionally. -/
theorem runBounded_succ (vm : MarieVMCore D) (n : Nat) :
    vm.runBounded (n + 1) = vm.afterStep (runRest n) := by
  rw [runBounded, runInner_eq, runPass, if_neg (by simp), if_neg (by simp), afterStep]
  cases hs : vm.step with
  | mk c vm' =>
    cases c with
    | continue_ => exact runInner_rest vm' (by omega) (by omega)
    | _ => rfl

theorem runBounded_zero (vm : MarieVMCore D) : vm.runBounded 0 = .suspended vm .stepLimit := by
  rw [runBounded, runInner_eq, runPass, if_pos (by simp)]

/-- The step limit only cuts a run short. -/
theorem runRest_add {m : Nat} (n : Nat) {s s' : MarieVMCore D}
    (h : runRest m s = .suspended s' .stepLimit) : runRest (m + n) s = runRest n s' := by
  induction m generalizing s with
  | zero =>
    cases h
    rw [Nat.zero_add]
  | succ m ih =>
    rw [runRest] at h
    rw [Nat.add_right_comm, runRest]
    split at h
    · cases h
    · rename_i hb
      rw [if_neg hb]
      unfold afterStep at h ⊢
      split at h
      · exact ih h
      all_goals cases h

theorem runBounded_add {m : Nat} (n : Nat) {s s' : MarieVMCore D} (hm : 1 ≤ m)
    (h : s.runBounded m = .suspended s' .stepLimit) : s.runBounded (m + n) = runRest n s' := by
  obtain ⟨m, rfl⟩ : ∃ m', m = m' + 1 := ⟨m - 1, by omega⟩
  rw [Nat.add_right_comm]
  rw [runBounded_succ, afterStep] at h ⊢
  split at h
  · exact runRest_add n h
  all_goals cases h

/-- A run stops at a breakpoint exactly when it walks there past none. -/
theorem runRest_breakpoint {n : Nat} {s t : MarieVMCore D} {a : MemoryAddress} :
    runRest n s = .suspended t (.breakpoint a) ↔
      ∃ k < n, stepsTo k s = some t ∧ t.atBreakpoint ∧ a = t.registers.pc ∧
        ∀ j < k, ∀ u, stepsTo j s = some u → ¬ u.atBreakpoint := by
  induction n generalizing s with
  | zero => simp [runRest]
  | succ n ih =>
    rw [runRest]
    constructor
    · intro h
      split at h
      · rename_i hb
        cases h
        exact ⟨0, by omega, rfl, hb, rfl, by omega⟩
      · rename_i hb
        unfold afterStep at h
        split at h
        · rename_i s' hs
          obtain ⟨k, hk, hto, ht, ha, hclear⟩ := ih.mp h
          refine ⟨k + 1, by omega, by rw [stepsTo, hs]; exact hto, ht, ha, ?_⟩
          intro j hj u hu
          cases j with
          | zero =>
            cases hu
            exact hb
          | succ j =>
            rw [stepsTo, hs] at hu
            exact hclear j (by omega) u hu
        all_goals cases h
    · rintro ⟨k, hk, hto, ht, ha, hclear⟩
      cases k with
      | zero =>
        cases hto
        rw [if_pos ht, ha]
      | succ k =>
        rw [if_neg (hclear 0 (by omega) s rfl), afterStep]
        unfold stepsTo at hto
        split at hto
        · rename_i s' hs
          simp only [hs]
          refine ih.mpr ⟨k, by omega, hto, ht, ha, fun j hj u hu => ?_⟩
          exact hclear (j + 1) (by omega) u (by rw [stepsTo, hs]; exact hu)
        · cases hto

/-- The machine comes back to itself within `n` instructions, meeting no
breakpoint on the way round. -/
def Revisits (n : Nat) (s : MarieVMCore D) : Prop :=
  ∃ k, 1 ≤ k ∧ k < n ∧ stepsTo k s = some s ∧
    ∀ j, 1 ≤ j → j < k → ∀ u, stepsTo j s = some u → ¬ u.atBreakpoint

/-- From a machine at a breakpoint, a call that exempts its first instruction
ends where a run that does not exempt it stands, only by coming back there. -/
theorem runBounded_revisits {n : Nat} {s : MarieVMCore D} (hb : s.atBreakpoint) :
    s.runBounded (n + 1) = .suspended s (.breakpoint s.registers.pc) ↔ Revisits (n + 1) s := by
  rw [runBounded_succ, afterStep]
  constructor
  · intro h
    split at h
    · rename_i s' hs
      obtain ⟨k, hk, hto, -, -, hclear⟩ := runRest_breakpoint.mp h
      refine ⟨k + 1, by omega, by omega, by rw [stepsTo, hs]; exact hto, ?_⟩
      intro j hj hjk u hu
      obtain ⟨j, rfl⟩ : ∃ j', j = j' + 1 := ⟨j - 1, by omega⟩
      rw [stepsTo, hs] at hu
      exact hclear j (by omega) u hu
    all_goals cases h
  · rintro ⟨k, hk, hkn, hto, hclear⟩
    obtain ⟨k, rfl⟩ : ∃ k', k = k' + 1 := ⟨k - 1, by omega⟩
    unfold stepsTo at hto
    split at hto
    · rename_i s' hs
      simp only [hs]
      refine runRest_breakpoint.mpr ⟨k, by omega, hto, hb, rfl, fun j hj u hu => ?_⟩
      exact hclear (j + 1) (by omega) (by omega) u (by rw [stepsTo, hs]; exact hu)
    · cases hto

/-- A slice boundary is invisible when it falls on no breakpoint, or when
nothing is run after it, or when the run comes round to it again. -/
def Seamless (n : Nat) (s : MarieVMCore D) : Prop :=
  n = 0 ∨ ¬ s.atBreakpoint ∨ Revisits n s

theorem runBounded_eq_rest {n : Nat} {s : MarieVMCore D} :
    s.runBounded n = runRest n s ↔ Seamless n s := by
  cases n with
  | zero => simp [runBounded_zero, runRest, Seamless]
  | succ n =>
    by_cases hb : s.atBreakpoint
    · rw [runRest, if_pos hb, runBounded_revisits hb]
      simp [Seamless, hb]
    · rw [runRest, if_neg hb, runBounded_succ]
      simp [Seamless, hb]

/-- Two `LoadImmi 000`, with a breakpoint at the second. -/
def twoLoads : MarieVMCore VecIo :=
  { MarieVMCore.new (VecIo.new []) with
    memory := fun _ => 0xA000
    breakpoints := (BreakpointSet.new.insert 1).2 }

theorem twoLoads_step : twoLoads.step = (.continue_, (stepWithin 10 twoLoads).2) := by
  rw [step_eq_stepWithin (by decide) (Nat.sub_le 10 _)]
  exact Prod.ext (by decide +kernel) rfl

theorem twoLoads_slice :
    twoLoads.runBounded 1 = .suspended (stepWithin 10 twoLoads).2 .stepLimit := by
  rw [runBounded_succ, afterStep, twoLoads_step]
  rfl

/-- Two slices make one run exactly when the boundary between them is seamless. -/
theorem slices_agree {m : Nat} (n : Nat) {s s' : MarieVMCore D} (hm : 1 ≤ m)
    (h : s.runBounded m = .suspended s' .stepLimit) :
    s'.runBounded n = s.runBounded (m + n) ↔ Seamless n s' := by
  rw [runBounded_add n hm h]
  exact runBounded_eq_rest

theorem slices_agree_twoLoads :
    (stepWithin 10 twoLoads).2.runBounded 1 = twoLoads.runBounded (1 + 1) ↔
      Seamless 1 (stepWithin 10 twoLoads).2 :=
  slices_agree 1 le_rfl twoLoads_slice

/-- A slice that ends on a breakpoint loses it: one run of two instructions
stops there, two slices of one instruction walk over it. -/
theorem slices_lose_breakpoint :
    (∀ io device : VecIo, MarieVmIODevice.pollInput io ≠ (.pending, device)) ∧
    ∃ s, twoLoads.runBounded 1 = .suspended s .stepLimit ∧
      twoLoads.runBounded 2 = .suspended s (.breakpoint 1) ∧
      (∃ t, s.runBounded 1 = .suspended t .stepLimit) ∧
      s.runBounded 1 ≠ twoLoads.runBounded 2 := by
  have hready : ∀ io device : VecIo, MarieVmIODevice.pollInput io ≠ (.pending, device) := by
    rintro ⟨_ | _, _⟩ device <;> exact nofun
  have hfirst := twoLoads_step
  have hone := twoLoads_slice
  generalize hs : (stepWithin 10 twoLoads).2 = s at hfirst hone
  have hsecond : s.step = (.continue_, (stepWithin 10 s).2) := by
    rw [step_eq_stepWithin (by decide) (Nat.sub_le 10 _), ← hs]
    exact Prod.ext (by decide +kernel) rfl
  have hb : s.atBreakpoint = true := by
    rw [← hs]
    decide +kernel
  have hpc : s.registers.pc = 1 := by
    rw [← hs]
    decide +kernel
  have htwo : twoLoads.runBounded 2 = .suspended s (.breakpoint 1) := by
    rw [runBounded_succ, afterStep, hfirst]
    simp [runRest, hb, hpc]
  have hslice : s.runBounded 1 = .suspended (stepWithin 10 s).2 .stepLimit := by
    rw [runBounded_succ, afterStep, hsecond]
    rfl
  refine ⟨hready, s, hone, htwo, ⟨_, hslice⟩, ?_⟩
  rw [hslice, htwo]
  simp

/-- A run that ends by itself is not changed by a larger budget. -/
theorem runRest_stable {m : Nat} (n : Nat) {s : MarieVMCore D}
    (h : ∀ t, runRest m s ≠ .suspended t .stepLimit) : runRest (m + n) s = runRest m s := by
  induction m generalizing s with
  | zero => exact absurd rfl (h s)
  | succ m ih =>
    rw [Nat.add_right_comm]
    rw [runRest] at h ⊢
    rw [runRest]
    split at h
    · rename_i hb
      rw [if_pos hb, if_pos hb]
    · rename_i hb
      rw [if_neg hb, if_neg hb]
      unfold afterStep at h ⊢
      split at h
      · rename_i s' hs
        exact ih h
      all_goals rfl

theorem runBounded_stable {m : Nat} (n : Nat) {s : MarieVMCore D}
    (h : ∀ t, s.runBounded m ≠ .suspended t .stepLimit) :
    s.runBounded (m + n) = s.runBounded m := by
  cases m with
  | zero => exact absurd (runBounded_zero s) (h s)
  | succ m =>
    rw [Nat.add_right_comm]
    rw [runBounded_succ, afterStep] at h ⊢
    rw [runBounded_succ, afterStep]
    split at h
    · exact runRest_stable n h
    all_goals rfl

/-- The debugger's loop of slices is one run as long as no slice ends on a
breakpoint. -/
theorem resume_eq_run {slice slices : Nat} {s : MarieVMCore D} (hslice : 1 ≤ slice)
    (hclear : ∀ j < slices, ∀ t, s.runBounded (slice * (j + 1)) = .suspended t .stepLimit →
      ¬ t.atBreakpoint) :
    resume slice slices s = s.runBounded (slice * slices) := by
  induction slices generalizing s with
  | zero => rw [resume, Nat.mul_zero, runBounded_zero]
  | succ k ih =>
    have hsum : ∀ j, slice * (j + 1) = slice + slice * j := fun j => by
      rw [Nat.mul_succ, Nat.add_comm]
    rw [resume, hsum]
    split
    · rename_i t ht
      have hb : ¬ t.atBreakpoint := hclear 0 (by omega) t (by simpa using ht)
      have hjoin : ∀ n, s.runBounded (slice + n) = t.runBounded n := fun n =>
        (runBounded_add n hslice ht).trans (runBounded_eq_rest.mpr (.inr (.inl hb))).symm
      rw [hjoin]
      refine ih fun j hj u hu => hclear (j + 1) (by omega) u ?_
      rw [hsum, hjoin]
      exact hu
    · rename_i hend
      exact (runBounded_stable _ hend).symm

end MarieRs.Vm.MarieVMCore
