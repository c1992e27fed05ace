import MarieRs.Cli.Input
import MarieRs.Lib.Looping
import MarieRs.Vm.Breakpoints
import MarieRs.Vm.Prompt
import MarieRs.Vm.Reset
import MarieRs.Vm.Safety
import MarieRs.Vm.Stalls
import MarieRs.Vm.Stopping

namespace MarieRs.Cli

open Lib Vm
open MarieVMCore (Within)

/-! The loops of `marie run` around a machine: at full speed, with the display, or at the pace
of the slider. Nobody interrupts them. -/

/-- The counters of the drivers. A release build lets them wrap, after 2^64 instructions without
a limit. -/
abbrev U64 := BitVec 64

/-- `u64::saturating_sub` -/
def saturatingSub (a b : U64) : U64 := if b ≤ a then a - b else 0

/-- `u64::min` -/
def lesser (a b : U64) : U64 := if a ≤ b then a else b

/-- The flags that the drivers look at. -/
structure Args where
  maxSteps : Option U64
  refresh : U64

/-- A position of the slider. -/
structure Speed where
  level : Fin 10

namespace Speed

def LEVELS : Fin 10 → Option U64 :=
  ![some 1, some 1, some 1, some 1, some 1, some 1, some 10, some 50, some 100, none]

/-- The micro-steps in a batch, if there is an end to them. -/
def microSteps (speed : Speed) : Option U64 := LEVELS speed.level

def budget (speed : Speed) : U64 := speed.microSteps.getD (BitVec.allOnes 64)

theorem budget_ne_zero (speed : Speed) : speed.budget.toNat ≠ 0 := by
  obtain ⟨level⟩ := speed
  fin_cases level <;> decide

end Speed

/-- What the tool says when it fails. -/
structure Report where
  message : String
  help : Option String

/-- How a driver ends, and with which machine. -/
structure Ending (D : Type) where
  outcome : RunOutcome D
  report : Option Report

/-- The ending but for the advice. -/
def Ending.way {D : Type} (ending : Ending D) : RunOutcome D × Option String :=
  (ending.outcome, ending.report.map Report.message)

def RAISE_MAX_STEPS : String := "raise --max-steps if the program is meant to run this long"

/-- What `run` makes of the outcome of `uninterrupted`. A panic is not reported by the tool. -/
def uninterruptedReport {D : Type} : RunOutcome D → Option Report
  | .terminated _ | .panicked _ => none
  | .faulted _ fault =>
    some ⟨fault.display, some "the machine stopped at the address named above"⟩
  | .suspended _ reason => some ⟨reason.display, some RAISE_MAX_STEPS⟩

def animateReport {D : Type} : RunOutcome D → Option Report
  | .terminated _ | .panicked _ => none
  | .faulted _ fault => some ⟨fault.display, none⟩
  | .suspended _ .stepLimit => some ⟨"step limit reached", some RAISE_MAX_STEPS⟩
  | .suspended _ reason => some ⟨reason.display, none⟩

/-- A driver between two slices, or in the loop of `run_bounded`, which has gone round `passes`
times in this one. -/
inductive Sliced (D : Type) where
  | between (running : MarieVMCore D) (executed : U64)
  | inside (running : MarieVMCore D) (executed slice : U64) (passes : Nat)

/-- A batch under way, with what is `left` of its budget, after so many `reads` of the clock. -/
structure Paced (D : Type) where
  stepping : MarieVMCore D
  instructions : U64
  left : Nat
  reads : Nat

/-- The instructions that the next slice may have. -/
def nextSlice (most : U64) (maxSteps : Option U64) (executed : U64) : U64 :=
  match maxSteps with
  | some limit => lesser most (saturatingSub limit executed)
  | none => most

section Device
variable {D : Type} [MarieVmIODevice D]

/-- The loop that `uninterrupted` and `animate` have in common, with the one in `run_bounded`. An
instruction that is done is shown by the machine it leaves. -/
def slicedTurn (most : U64) (maxSteps : Option U64) (report : RunOutcome D → Option Report) :
    Sliced D → Ending D ⊕ (Option (MarieVMCore D) × Sliced D)
  | .between running executed =>
    let slice := nextSlice most maxSteps executed
    if slice = 0 then
      .inl ⟨.suspended running .stepLimit, report (.suspended running .stepLimit)⟩
    else .inr (none, .inside running executed slice 0)
  | .inside running executed slice passes =>
    match running.runPass (some slice.toNat) passes with
    | .inr running => .inr (some running, .inside running executed slice (passes + 1))
    | .inl (.suspended running .stepLimit) => .inr (none, .between running (executed + slice))
    | .inl outcome => .inl ⟨outcome, report outcome⟩

def SLICE : U64 := 1000000

def uninterruptedTurn (args : Args) : Sliced D → Ending D ⊕ (Option (MarieVMCore D) × Sliced D) :=
  slicedTurn SLICE args.maxSteps uninterruptedReport

def animateTurn (args : Args) : Sliced D → Ending D ⊕ (Option (MarieVMCore D) × Sliced D) :=
  slicedTurn args.refresh args.maxSteps animateReport

/-- The loop of `pace`. The clock says whether the time for the batch is over, each time it is
read. -/
def paceTurn (args : Args) (speed : Speed) (clock : Nat → Bool) (pace : Paced D) :
    Ending D ⊕ (Option (MarieVMCore D) × Paced D) :=
  if pace.left = 0 then .inr (none, { pace with left := speed.budget.toNat })
  else if clock pace.reads then
    .inr (none, { pace with left := speed.budget.toNat, reads := pace.reads + 1 })
  else if args.maxSteps.any (fun limit => decide (pace.instructions ≥ limit)) then
    .inl ⟨.suspended pace.stepping .stepLimit, some ⟨"step limit reached", some RAISE_MAX_STEPS⟩⟩
  else
    let goesOn (stepping : MarieVMCore D) : Paced D :=
      { pace with stepping, left := pace.left - 1, reads := pace.reads + 1 }
    match pace.stepping.microStep with
    | (.executed _, stepping) =>
      -- a completed cycle returns the machine to a boundary
      if stepping.microPc = 0 then
        .inr (some stepping, { goesOn stepping with instructions := pace.instructions + 1 })
      else .inr (none, goesOn stepping)
    | (.awaitingInput, stepping) => .inr (none, goesOn stepping)
    | (.halted, vm) => .inl ⟨.terminated vm, none⟩
    | (.faulted fault, vm) => .inl ⟨.faulted vm fault, some ⟨fault.display, none⟩⟩
    | (.panicked, vm) => .inl ⟨.panicked vm, none⟩

/-- The loop of `run_inner` under the whole limit, for comparison: what a run is, without slices
and batches. -/
def wholeTurn (budget : Option Nat) (run : Nat × MarieVMCore D) :
    (RunOutcome D × Option String) ⊕ (Option (MarieVMCore D) × (Nat × MarieVMCore D)) :=
  match run.2.runPass budget run.1 with
  | .inl outcome => .inl (outcome, (uninterruptedReport outcome).map Report.message)
  | .inr vm => .inr (some vm, (run.1 + 1, vm))

end Device

variable {D : Type}

/-- The limit, as a number of instructions. -/
def Args.budget (args : Args) : Option Nat := args.maxSteps.map BitVec.toNat

theorem saturatingSub_toNat (a b : U64) : (saturatingSub a b).toNat = a.toNat - b.toNat := by
  rw [saturatingSub]
  split <;> rename_i h
  · exact BitVec.toNat_sub_of_le h
  · rw [BitVec.le_def] at h
    change 0 = a.toNat - b.toNat
    omega

theorem lesser_toNat (a b : U64) : (lesser a b).toNat = min a.toNat b.toNat := by
  rw [lesser]
  split <;> rename_i h
  all_goals
    rw [BitVec.le_def] at h
    omega

/-- The counter of a driver after `k` instructions: the limit is what it can be told from. -/
theorem counter_toNat {args : Args} {limit : U64} {k : Nat} (hlimit : args.maxSteps = some limit)
    (hwithin : Within args.budget k) :
    (BitVec.ofNat 64 k).toNat = k ∧ k ≤ limit.toNat := by
  have hle : k ≤ limit.toNat := hwithin limit.toNat (by rw [Args.budget, hlimit]; rfl)
  have hlt := limit.isLt
  rw [BitVec.toNat_ofNat, Nat.mod_eq_of_lt (by omega)]
  exact ⟨rfl, hle⟩

theorem nextSlice_eq_zero {args : Args} {most : U64} {k : Nat}
    (hwithin : Within args.budget k) :
    nextSlice most args.maxSteps (BitVec.ofNat 64 k) = 0 ↔ most = 0 ∨ args.budget = some k := by
  rw [Args.budget]
  cases hlimit : args.maxSteps with
  | none => simp [nextSlice]
  | some limit =>
    obtain ⟨hcounter, hle⟩ := counter_toNat hlimit hwithin
    simp only [nextSlice, Option.map_some, Option.some.injEq]
    rw [← BitVec.toNat_inj, lesser_toNat, saturatingSub_toNat, hcounter, ← BitVec.toNat_inj]
    change min _ _ = 0 ↔ _ = 0 ∨ _
    omega

/-- No slice goes over the limit. -/
theorem nextSlice_within {args : Args} (most : U64) {k : Nat} (hwithin : Within args.budget k) :
    Within args.budget (k + (nextSlice most args.maxSteps (BitVec.ofNat 64 k)).toNat) := by
  intro whole hwhole
  rw [Args.budget] at hwhole
  obtain ⟨limit, hlimit, rfl⟩ := Option.map_eq_some_iff.mp hwhole
  obtain ⟨hcounter, hle⟩ := counter_toNat hlimit hwithin
  simp only [hlimit, nextSlice, lesser_toNat, saturatingSub_toNat, hcounter]
  omega

/-- The test that `pace` makes before every micro-step. -/
theorem counter_spent {args : Args} {k : Nat} (hwithin : Within args.budget k) :
    args.maxSteps.any (fun limit => decide (BitVec.ofNat 64 k ≥ limit)) = true ↔
      args.budget = some k := by
  rw [Args.budget]
  cases hlimit : args.maxSteps with
  | none => simp
  | some limit =>
    obtain ⟨hcounter, hle⟩ := counter_toNat hlimit hwithin
    simp only [Option.any_some, decide_eq_true_eq, ge_iff_le, Option.map_some, Option.some.injEq]
    rw [BitVec.le_def, hcounter]
    omega

variable [MarieVmIODevice D]

/-- As long as the budget is not spent, a pass does not look at it. -/
theorem runPass_free {budget : Option Nat} {k : Nat} {vm : MarieVMCore D}
    (hwithin : Within budget k) (hlimit : budget ≠ some k) (hfree : vm.breakpoints = .new) :
    vm.runPass budget k = vm.runPass none 0 := by
  have hnot : ¬(k > 0 ∧ vm.atBreakpoint = true) := by
    rw [MarieVMCore.atBreakpoint, hfree, BreakpointSet.contains_new, Bool.and_false]
    simp
  rw [MarieVMCore.runPass, MarieVMCore.runPass, if_neg (mt hwithin.spent.mp hlimit), if_neg hnot]
  simp

theorem runPass_spent {budget : Option Nat} {k : Nat} (vm : MarieVMCore D)
    (hlimit : budget = some k) : vm.runPass budget k = .inl (.suspended vm .stepLimit) := by
  rw [MarieVMCore.runPass, hlimit, if_pos (by simp)]

/-- What a pass without a budget can come to. -/
theorem runPass_outcome {vm : MarieVMCore D} {outcome : RunOutcome D}
    (h : vm.runPass none 0 = .inl outcome) :
    (∃ vm', outcome = .terminated vm') ∨ (∃ vm' fault, outcome = .faulted vm' fault) ∨
      (vm.step.1 = .awaitingInput ∧ ∃ vm', outcome = .suspended vm' .awaitingInput) ∨
      vm.step.1 = .panicked ∧ ∃ vm', outcome = .panicked vm' := by
  rw [MarieVMCore.runPass, if_neg (by simp), if_neg (by simp)] at h
  split at h <;> rename_i hs
  all_goals cases h
  all_goals simp [hs]

theorem runPass_breakpoints {vm vm' : MarieVMCore D} (h : vm.runPass none 0 = .inr vm') :
    vm'.breakpoints = vm.breakpoints := by
  have hstep := vm.step_breakpoints
  rw [MarieVMCore.runPass, if_neg (by simp), if_neg (by simp)] at h
  split at h
  all_goals cases h
  rename_i hs
  rw [hs] at hstep
  exact hstep

/-- The rest of an instruction is as good as the instruction. -/
theorem runPass_rest {s vm : MarieVMCore D} (h : s.step = vm.step) :
    s.runPass none 0 = vm.runPass none 0 := by
  simp only [MarieVMCore.runPass, h]
  rfl

theorem runPass_boundary {vm vm' : MarieVMCore D} {op : MicroOp}
    (h : vm.microStep = (.executed op, vm')) (hz : vm'.microPc = 0) :
    vm.runPass none 0 = .inr vm' := by
  rw [MarieVMCore.runPass, if_neg (by simp), if_neg (by simp), MarieVMCore.step_boundary h hz]

theorem runPass_stop {vm vm' : MarieVMCore D} {stop : MicroOutcome}
    (h : vm.microStep = (stop, vm')) (hstop : ∀ op, stop ≠ .executed op) :
    vm.runPass none 0 = .inl (.ofStop stop vm') := by
  rw [MarieVMCore.runPass, if_neg (by simp), if_neg (by simp), MarieVMCore.step_stop h hstop]
  cases stop with
  | executed op => exact absurd rfl (hstop op)
  | halted | awaitingInput | faulted fault | panicked => rfl

/-- Where the slices are in the whole run. -/
def Sliced.IsPart (args : Args) : Sliced D → Nat × MarieVMCore D → Prop
  | .between running executed, (k, vm) =>
    running = vm ∧ vm.breakpoints = .new ∧ executed = BitVec.ofNat 64 k ∧ Within args.budget k
  | .inside running executed slice passes, (k, vm) =>
    running = vm ∧ vm.breakpoints = .new ∧ ∃ before, executed = BitVec.ofNat 64 before ∧
      k = before + passes ∧ slice ≠ 0 ∧ Within (some slice.toNat) passes ∧
      Within args.budget (before + slice.toNat)

/-- The passes until the next instruction. -/
def Sliced.wait : Sliced D → Nat
  | .between _ _ => 1
  | .inside _ _ slice passes => if passes = slice.toNat then 2 else 0

theorem slicedTurn_ends {most : U64} {maxSteps : Option U64}
    {report : RunOutcome D → Option Report} {vm : MarieVMCore D} {executed slice : U64}
    {passes : Nat} {outcome : RunOutcome D}
    (hpass : vm.runPass (some slice.toNat) passes = .inl outcome)
    (hgoes : ∀ vm', outcome ≠ .suspended vm' .stepLimit) :
    slicedTurn most maxSteps report (.inside vm executed slice passes) =
      .inl ⟨outcome, report outcome⟩ := by
  rw [slicedTurn, hpass]
  split
  · rename_i h
    cases h
  · rename_i h
    cases h
    exact absurd rfl (hgoes _)
  · rename_i h
    cases h
    rfl

/-- A slice is a call of `run_bounded`. -/
theorem slice_runBounded {most : U64} {maxSteps : Option U64}
    {report : RunOutcome D → Option Report} (vm : MarieVMCore D) (executed slice : U64) :
    ∃ seen passes vm', Looping.Comes (slicedTurn most maxSteps report)
      (.inside vm executed slice 0) seen (.inside vm' executed slice passes) ∧
      vm'.runPass (some slice.toNat) passes = .inl (vm.runBounded slice.toNat) := by
  have hruns : ∀ {passes vm outcome}, MarieVMCore.RunInner (some slice.toNat) passes vm outcome →
      ∃ seen passes' vm', Looping.Comes (slicedTurn most maxSteps report)
        (.inside vm executed slice passes) seen (.inside vm' executed slice passes') ∧
        vm'.runPass (some slice.toNat) passes' = .inl outcome := by
    intro passes vm outcome hrun
    induction hrun with
    | @ends passes vm outcome hpass => exact ⟨[], passes, vm, .here, hpass⟩
    | @goesOn passes vm next outcome hpass hrest ih =>
      obtain ⟨seen, passes', vm', hcomes, hends⟩ := ih
      have hturn : slicedTurn most maxSteps report (.inside vm executed slice passes) =
          .inr (some next, .inside next executed slice (passes + 1)) := by
        rw [slicedTurn, hpass]
      exact ⟨_, passes', vm', (Looping.Comes.here.pass hturn).trans hcomes, hends⟩
  exact hruns (MarieVMCore.runs_bounded.mpr rfl)

/-- Slices make progress together with the whole run, unless they are empty before the limit. -/
theorem sliced_progress (args : Args) (most : U64) (report : RunOutcome D → Option Report)
    (hmost : most ≠ 0 ∨ args.budget = some 0)
    (hreport : ∀ outcome : RunOutcome D, (report outcome).map Report.message =
      (uninterruptedReport outcome).map Report.message)
    (s : Sliced D) (t : Nat × MarieVMCore D) (h : s.IsPart args t) :
    Looping.Progress (slicedTurn most args.maxSteps report) (wholeTurn args.budget)
      (Sliced.IsPart args) (fun s s' => s.wait < s'.wait) Ending.way s t := by
  obtain ⟨k, vm⟩ := t
  cases s with
  | between running executed =>
    obtain ⟨rfl, hfree, rfl, hwithin⟩ := h
    by_cases hzero : nextSlice most args.maxSteps (BitVec.ofNat 64 k) = 0
    · have hspent : args.budget = some k := by
        rcases (nextSlice_eq_zero hwithin).mp hzero with hnone | hspent
        · have hempty := hmost.resolve_left (not_not_intro hnone)
          have hk := hwithin 0 hempty
          rw [hempty, Nat.le_zero.mp hk]
        · exact hspent
      refine .ends (e := ⟨.suspended running .stepLimit, report (.suspended running .stepLimit)⟩)
        ?_ ?_
      · rw [slicedTurn, if_pos hzero]
      · rw [wholeTurn, runPass_spent running hspent, Ending.way, hreport]
    · refine .waits (u := .inside running (BitVec.ofNat 64 k) _ 0) (if_neg hzero) ?_ ?_
      · exact ⟨rfl, hfree, k, rfl, rfl, hzero, fun _ _ => Nat.zero_le _,
          nextSlice_within most hwithin⟩
      · have hne : ¬0 = (nextSlice most args.maxSteps (BitVec.ofNat 64 k)).toNat :=
          fun hz => hzero (BitVec.eq_of_toNat_eq hz.symm)
        rw [Sliced.wait, Sliced.wait, if_neg hne]
        exact Nat.zero_lt_one
  | inside running executed slice passes =>
    obtain ⟨rfl, hfree, before, rfl, rfl, hslice, hpasses, hwithin⟩ := h
    by_cases hdone : passes = slice.toNat
    · -- the slice is used up, and the next one begins where it ended
      refine .waits (u := .between running (BitVec.ofNat 64 before + slice)) ?_ ?_ ?_
      · rw [slicedTurn, runPass_spent running (by rw [hdone])]
      · refine ⟨rfl, hfree, ?_, ?_⟩
        · rw [hdone, BitVec.ofNat_add, BitVec.ofNat_toNat, BitVec.setWidth_eq]
        · rw [hdone]
          exact hwithin
      · rw [Sliced.wait, Sliced.wait, if_pos hdone]
        exact Nat.one_lt_two
    · have hle := hpasses _ rfl
      have hsome : (some slice.toNat) ≠ some passes := fun heq => hdone (Option.some.inj heq).symm
      have hbefore : Within args.budget (before + passes) :=
        fun limit hlimit => (Nat.add_le_add_left hle before).trans (hwithin limit hlimit)
      have hlimit : args.budget ≠ some (before + passes) := by
        intro heq
        have hover := hwithin _ heq
        omega
      have hpart := runPass_free hpasses hsome hfree
      have hwhole := runPass_free hbefore hlimit hfree
      cases hpass : running.runPass none 0 with
      | inr vm' =>
        rw [hpass] at hpart hwhole
        refine .works (l := some vm')
          (u := .inside vm' (BitVec.ofNat 64 before) slice (passes + 1))
          (v := (before + passes + 1, vm')) ?_ ?_ ?_
        · rw [slicedTurn, hpart]
        · rw [wholeTurn, hwhole]
        · refine ⟨rfl, (runPass_breakpoints hpass).trans hfree, before, rfl, rfl, hslice, ?_,
            hwithin⟩
          exact hpasses.succ hsome
      | inl outcome =>
        rw [hpass] at hpart hwhole
        refine .ends (e := ⟨outcome, report outcome⟩) (slicedTurn_ends hpart fun vm' heq => ?_) ?_
        · subst heq
          simpa using runPass_outcome hpass
        · rw [wholeTurn, hwhole, Ending.way, hreport]

/-- The rest of the instruction under way does what the instruction does from its start. Only
between instructions can the limit be spent. -/
def Paced.IsPart (args : Args) (pace : Paced D) (run : Nat × MarieVMCore D) : Prop :=
  pace.stepping.step = run.2.step ∧ run.2.breakpoints = .new ∧
    pace.instructions = BitVec.ofNat 64 run.1 ∧ Within args.budget run.1 ∧
    (pace.stepping = run.2 ∨ args.budget ≠ some run.1)

/-- The clock does not say for ever that the time is over. -/
def Fair (clock : Nat → Bool) : Prop := ∀ reads, ∃ later, reads ≤ later ∧ clock later = false

/-- The micro-steps until the next instruction, the reads of the clock until the next micro-step
and the batches until the next read. -/
def Paced.wait {clock : Nat → Bool} (hfair : Fair clock) (pace : Paced D) : ℕ ×ₗ ℕ ×ₗ ℕ :=
  toLex (10 - pace.stepping.microPc, toLex (Nat.find (hfair pace.reads) - pace.reads,
    if pace.left = 0 then 1 else 0))

theorem find_later {clock : Nat → Bool} (hfair : Fair clock) {reads : Nat}
    (hover : clock reads = true) :
    Nat.find (hfair (reads + 1)) - (reads + 1) < Nat.find (hfair reads) - reads := by
  obtain ⟨hle, hgoes⟩ := Nat.find_spec (hfair reads)
  have hne : reads ≠ Nat.find (hfair reads) := by
    intro heq
    rw [← heq, hover] at hgoes
    cases hgoes
  have hmin := Nat.find_min' (hfair (reads + 1)) ⟨by omega, hgoes⟩
  omega

/-- Batches make progress together with the whole run, on a device that is always ready. -/
theorem pace_progress (hready : AlwaysReady D) (args : Args) (speed : Speed)
    {clock : Nat → Bool} (hfair : Fair clock) (pace : Paced D) (t : Nat × MarieVMCore D)
    (h : pace.IsPart args t) :
    Looping.Progress (paceTurn args speed clock) (wholeTurn args.budget) (Paced.IsPart args)
      (fun s s' => s.wait hfair < s'.wait hfair) Ending.way pace t := by
  obtain ⟨k, vm⟩ := t
  obtain ⟨stepping, instructions, left, reads⟩ := pace
  obtain ⟨hstep, hfree, hinstructions, hwithin, hboundary⟩ := h
  dsimp only at hstep hfree hinstructions hwithin hboundary
  subst hinstructions
  by_cases hleft : left = 0
  · refine .waits (u := ⟨stepping, BitVec.ofNat 64 k, speed.budget.toNat, reads⟩) (if_pos hleft)
      ⟨hstep, hfree, rfl, hwithin, hboundary⟩ ?_
    rw [Paced.wait, Paced.wait, if_neg speed.budget_ne_zero, if_pos hleft]
    exact Prod.Lex.right _ (Prod.Lex.right _ Nat.zero_lt_one)
  by_cases hover : clock reads = true
  · refine .waits (u := ⟨stepping, BitVec.ofNat 64 k, speed.budget.toNat, reads + 1⟩) ?_
      ⟨hstep, hfree, rfl, hwithin, hboundary⟩ ?_
    · rw [paceTurn, if_neg hleft, if_pos hover]
    · exact Prod.Lex.right _ (Prod.Lex.left _ _ (find_later hfair hover))
  by_cases hspent : args.budget = some k
  · obtain rfl := hboundary.resolve_right (not_not_intro hspent)
    refine .ends (e := ⟨.suspended stepping .stepLimit,
      some ⟨"step limit reached", some RAISE_MAX_STEPS⟩⟩) ?_ ?_
    · rw [paceTurn, if_neg hleft, if_neg hover, if_pos ((counter_spent hwithin).mpr hspent)]
    · rw [wholeTurn, runPass_spent stepping hspent]
      rfl
  have hunspent := mt (counter_spent hwithin).mp hspent
  have hrest := runPass_rest hstep
  have hwhole := runPass_free hwithin hspent hfree
  rcases hs : stepping.microStep with ⟨out, next⟩
  cases out with
  | executed op =>
    by_cases hz : next.microPc = 0
    · rw [runPass_boundary hs hz] at hrest
      rw [← hrest] at hwhole
      refine .works (l := some next) (u := ⟨next, BitVec.ofNat 64 k + 1, left - 1, reads + 1⟩)
        (v := (k + 1, next)) ?_ ?_ ?_
      · rw [paceTurn, if_neg hleft, if_neg hover, if_neg hunspent, hs]
        exact if_pos hz
      · rw [wholeTurn, hwhole]
      · exact ⟨rfl, (runPass_breakpoints hrest.symm).trans hfree, (BitVec.ofNat_add ..).symm,
          hwithin.succ hspent, .inl rfl⟩
    · refine .waits (u := ⟨next, BitVec.ofNat 64 k, left - 1, reads + 1⟩) ?_ ?_ ?_
      · rw [paceTurn, if_neg hleft, if_neg hover, if_neg hunspent, hs]
        exact if_neg hz
      · exact ⟨(MarieVMCore.step_inner hs hz).symm.trans hstep, hfree, rfl, hwithin, .inr hspent⟩
      · obtain ⟨hpc, hten⟩ := MarieVMCore.microStep_microPc hs hz
        exact Prod.Lex.left _ _ (by dsimp only; omega)
  | awaitingInput =>
    have hnot := MarieVMCore.microStep_ready hready stepping
    rw [hs] at hnot
    exact absurd rfl hnot
  | halted =>
    rw [runPass_stop hs (by simp)] at hrest
    refine .ends (e := ⟨.terminated next, none⟩) ?_ ?_
    · rw [paceTurn, if_neg hleft, if_neg hover, if_neg hunspent, hs]
    · rw [wholeTurn, hwhole, ← hrest]
      rfl
  | faulted fault =>
    rw [runPass_stop hs (by simp)] at hrest
    refine .ends (e := ⟨.faulted next fault, some ⟨fault.display, none⟩⟩) ?_ ?_
    · rw [paceTurn, if_neg hleft, if_neg hover, if_neg hunspent, hs]
    · rw [wholeTurn, hwhole, ← hrest]
      rfl
  | panicked =>
    rw [runPass_stop hs (by simp)] at hrest
    refine .ends (e := ⟨.panicked next, none⟩) ?_ ?_
    · rw [paceTurn, if_neg hleft, if_neg hover, if_neg hunspent, hs]
    · rw [wholeTurn, hwhole, ← hrest]
      rfl

/-- The ways to drive a machine. -/
inductive Driver where
  | uninterrupted
  | animate
  | pace (speed : Speed) (clock : Nat → Bool)

namespace Driver

variable {D : Type} [MarieVmIODevice D]

/-- The instructions that have been executed at some time, each as the machine that it leaves. -/
def Executes (args : Args) (start : MarieVMCore D) (executed : List (MarieVMCore D)) :
    Driver → Prop
  | uninterrupted => Looping.Shows (uninterruptedTurn args) (.between start 0) executed
  | animate => Looping.Shows (animateTurn args) (.between start 0) executed
  | pace speed clock => Looping.Shows (paceTurn args speed clock) ⟨start, 0, 0, 0⟩ executed

/-- The driver comes to an end after these instructions. -/
def EndsWith (args : Args) (start : MarieVMCore D) (executed : List (MarieVMCore D))
    (ending : Ending D) : Driver → Prop
  | uninterrupted => Looping.Ends (uninterruptedTurn args) (.between start 0) executed ending
  | animate => Looping.Ends (animateTurn args) (.between start 0) executed ending
  | pace speed clock => Looping.Ends (paceTurn args speed clock) ⟨start, 0, 0, 0⟩ executed ending

end Driver

theorem step_ready (hready : AlwaysReady D) (vm : MarieVMCore D) :
    vm.step.1 ≠ .awaitingInput := by
  rcases vm.step_cases with ⟨n, s, hfinishes⟩ | ⟨n, stop, s, hstops⟩
  · rw [hfinishes.step]
    simp
  · rw [hstops.step]
    obtain ⟨-, t, -, hs, -⟩ := hstops.microSteps
    have hnot := MarieVMCore.microStep_ready hready t
    rw [hs] at hnot
    cases stop with
    | awaitingInput => exact absurd rfl hnot
    | executed | halted | faulted | panicked => simp [MarieVMCore.Continuation.ofStop]

/-- What holds all along a whole run. -/
structure Along (budget : Option Nat) (executed : List (MarieVMCore D))
    (run : Nat × MarieVMCore D) : Prop where
  counted : run.1 = executed.length
  within : Within budget run.1
  free : run.2.breakpoints = .new
  sound : MarieVMCore.Sound run.2

theorem along_whole {budget : Option Nat} {start : MarieVMCore D} (hfree : start.breakpoints = .new)
    (hsound : MarieVMCore.Sound start) {executed : List (MarieVMCore D)} {run : Nat × MarieVMCore D}
    (h : Looping.Comes (wholeTurn budget) (0, start) executed run) : Along budget executed run := by
  induction h with
  | here => exact ⟨rfl, fun _ _ => Nat.zero_le _, hfree, hsound⟩
  | @pass executed shown run next hcomes hturn ih =>
    rw [wholeTurn] at hturn
    split at hturn
    · cases hturn
    · rename_i vm hpass
      cases hturn
      have hlimit : budget ≠ some run.1 := by
        intro hspent
        rw [runPass_spent _ hspent] at hpass
        cases hpass
      have hkept : MarieVMCore.Sound vm :=
        (MarieVMCore.runPass_keeps (fun _ => MarieVMCore.Sound.microStep) ih.sound).2 vm hpass
      refine ⟨?_, ih.within.succ hlimit, ?_, hkept⟩
      · rw [List.length_append, ← ih.counted]
        rfl
      · rw [runPass_free ih.within hlimit ih.free] at hpass
        exact (runPass_breakpoints hpass).trans ih.free

/-- A whole run halts, faults, or has made the instructions that the limit allows. -/
theorem whole_ends (hready : AlwaysReady D) {budget : Option Nat} {start : MarieVMCore D}
    (hfree : start.breakpoints = .new) (hsound : MarieVMCore.Sound start)
    {executed : List (MarieVMCore D)} {way : RunOutcome D × Option String}
    (h : Looping.Ends (wholeTurn budget) (0, start) executed way) :
    (∃ vm, way.1 = .terminated vm) ∨ (∃ vm fault, way.1 = .faulted vm fault) ∨
      ∃ vm, way.1 = .suspended vm .stepLimit ∧ budget = some executed.length := by
  obtain ⟨run, hcomes, hturn⟩ := h
  have halong := along_whole hfree hsound hcomes
  by_cases hspent : budget = some run.1
  · rw [wholeTurn, runPass_spent _ hspent] at hturn
    cases hturn
    exact .inr (.inr ⟨_, rfl, halong.counted ▸ hspent⟩)
  · rw [wholeTurn, runPass_free halong.within hspent halong.free] at hturn
    split at hturn
    · rename_i outcome hpass
      cases hturn
      rcases runPass_outcome hpass with hhalts | hfaults | ⟨hawaits, -⟩ | ⟨hpanics, -⟩
      · exact .inl hhalts
      · exact .inr (.inl hfaults)
      · exact absurd hawaits (step_ready hready run.2)
      · exact absurd hpanics halong.sound.step_no_panic
    · cases hturn

/-- The drivers that there are, at one pace. -/
def drivers (speed : Speed) (clock : Nat → Bool) : List Driver :=
  [.uninterrupted, .animate, .pace speed clock]

/-- Each driver executes what any other one executes and ends as it ends: the machine halted, or
the same fault stopped it, or it has executed as many instructions as the limit that was given. -/
structure Agree (args : Args) (start : MarieVMCore D) (speed : Speed) (clock : Nat → Bool) :
    Prop where
  executes : ∀ driver ∈ drivers speed clock, ∀ other ∈ drivers speed clock, ∀ executed,
    driver.Executes args start executed → other.Executes args start executed
  ends : ∀ driver ∈ drivers speed clock, ∀ other ∈ drivers speed clock, ∀ executed ending,
    driver.EndsWith args start executed ending →
      ∃ same, other.EndsWith args start executed same ∧ same.way = ending.way
  ways : ∀ driver ∈ drivers speed clock, ∀ executed ending,
    driver.EndsWith args start executed ending →
      (∃ vm, ending.outcome = .terminated vm) ∨ (∃ vm fault, ending.outcome = .faulted vm fault) ∨
        ∃ vm limit, ending.outcome = .suspended vm .stepLimit ∧ args.maxSteps = some limit ∧
          executed.length = limit.toNat

/-- A driver is the whole run, seen from outside. -/
structure Driver.IsWhole (args : Args) (start : MarieVMCore D) (driver : Driver) : Prop where
  executes : ∀ executed, driver.Executes args start executed ↔
    Looping.Shows (wholeTurn args.budget) (0, start) executed
  ends : ∀ executed way, (∃ ending, driver.EndsWith args start executed ending ∧
    ending.way = way) ↔ Looping.Ends (wholeTurn args.budget) (0, start) executed way

omit [MarieVmIODevice D] in
theorem animateReport_message (outcome : RunOutcome D) :
    (animateReport outcome).map Report.message =
      (uninterruptedReport outcome).map Report.message := by
  cases outcome with
  | suspended vm reason => cases reason <;> rfl
  | terminated | faulted | panicked => rfl

theorem isWhole (hready : AlwaysReady D) {args : Args} {start : MarieVMCore D}
    (hfree : start.breakpoints = .new) {speed : Speed} {clock : Nat → Bool} (hfair : Fair clock)
    (hrefresh : args.refresh ≠ 0 ∨ args.budget = some 0) (driver : Driver)
    (hdriver : driver ∈ drivers speed clock) : driver.IsWhole args start := by
  have hbetween : (Sliced.between start 0).IsPart args (0, start) :=
    ⟨rfl, hfree, rfl, fun _ _ => Nat.zero_le _⟩
  have hwell : WellFounded fun s s' : Sliced D => s.wait < s'.wait :=
    InvImage.wf Sliced.wait wellFounded_lt
  rcases List.mem_cons.mp hdriver with rfl | hdriver
  · have hprogress := sliced_progress (D := D) args SLICE uninterruptedReport
      (.inl (by decide)) fun _ => rfl
    exact ⟨fun _ => Looping.shows_iff hwell hprogress hbetween,
      fun _ _ => Looping.ends_iff hwell hprogress hbetween⟩
  rcases List.mem_cons.mp hdriver with rfl | hdriver
  · have hprogress := sliced_progress (D := D) args args.refresh animateReport hrefresh
      animateReport_message
    exact ⟨fun _ => Looping.shows_iff hwell hprogress hbetween,
      fun _ _ => Looping.ends_iff hwell hprogress hbetween⟩
  · obtain rfl := List.mem_singleton.mp hdriver
    have hwell : WellFounded fun s s' : Paced D => s.wait hfair < s'.wait hfair :=
      InvImage.wf (Paced.wait hfair) wellFounded_lt
    have hprogress := pace_progress hready args speed hfair
    have hpart : (Paced.mk start 0 0 0).IsPart args (0, start) :=
      ⟨rfl, hfree, rfl, fun _ _ => Nat.zero_le _, .inl rfl⟩
    exact ⟨fun _ => Looping.shows_iff hwell hprogress hpart,
      fun _ _ => Looping.ends_iff hwell hprogress hpart⟩

/-- An empty slice is taken for the end of the limit. -/
theorem animate_refresh_zero {args : Args} (start : MarieVMCore D) (hrefresh : args.refresh = 0) :
    Driver.animate.EndsWith args start [] ⟨.suspended start .stepLimit,
      animateReport (.suspended start .stepLimit)⟩ := by
  have hempty : nextSlice args.refresh args.maxSteps 0 = 0 := by
    rw [hrefresh]
    cases args.maxSteps with
    | none => rfl
    | some limit =>
      have hleast : (0 : U64) ≤ saturatingSub limit 0 := Nat.zero_le _
      rw [nextSlice, lesser, if_pos hleast]
  refine ⟨_, .here, ?_⟩
  rw [animateTurn, slicedTurn, if_pos hempty]

theorem uninterrupted_halts {start vm : MarieVMCore D} (refresh : U64)
    (h : start.stepWithin 10 = (.halted, vm)) :
    Driver.uninterrupted.EndsWith ⟨none, refresh⟩ start [] ⟨.terminated vm, none⟩ := by
  have hstep : start.step = (.halted, vm) := by
    rw [MarieVMCore.step_eq_stepWithin (Nat.succ_pos 9) (Nat.sub_le 10 _), h]
  have hslice : nextSlice SLICE none 0 ≠ 0 := by decide
  have hbegins : uninterruptedTurn ⟨none, refresh⟩ (.between start 0) =
      .inr (none, .inside start 0 SLICE 0) := by
    rw [uninterruptedTurn, slicedTurn, if_neg hslice]
    rfl
  refine ⟨.inside start 0 SLICE 0, Looping.Comes.here.quiet hbegins, ?_⟩
  refine slicedTurn_ends ?_ fun vm' heq => by cases heq
  rw [MarieVMCore.runPass, if_neg (by decide), if_neg (by simp), hstep]

omit [MarieVmIODevice D] in
theorem install_breakpoints {program : Program} {vm vm' : MarieVMCore D}
    (h : program.install vm = .ok vm') : vm'.breakpoints = vm.breakpoints := by
  rw [Program.install] at h
  split at h
  · cases h
    rfl
  · split at h
    · cases h
    · rename_i loaded hload
      obtain ⟨memory, -, rfl⟩ := MarieVMCore.loadProgram_ok hload
      split at h
      all_goals
        cases h
        rfl

/-- A program that is put into a machine is put there through the public interface. -/
theorem install_reachable {program : Program} {vm vm' : MarieVMCore D}
    (hvm : MarieVMCore.Reachable .ready vm) (h : program.install vm = .ok vm') :
    MarieVMCore.Reachable .ready vm' := by
  rw [Program.install] at h
  split at h
  · cases h
    exact hvm.call (.flashProgram ..)
  · split at h
    · cases h
    · rename_i loaded hload
      have hloaded := hvm.call (.loadProgram hload)
      split at h
      · cases h
        exact hloaded.call (.registersMut ..)
      · cases h
        exact hloaded

theorem alwaysReady_stdinIo : AlwaysReady StdinIo := by
  intro device after h
  cases h

/-- The drivers agree unless the display is to be refreshed after no instructions at all, which
`animate` takes for a limit that is reached. -/
theorem drivers_agree (program : Program) (mode : InputMode) (stdin : Stdin)
    {start : MarieVMCore StdinIo}
    (hstart : program.install (.new (.withMode mode stdin)) = .ok start) (args : Args)
    (speed : Speed) {clock : Nat → Bool} (hfair : Fair clock) :
    Agree args start speed clock ↔ args.refresh ≠ 0 ∨ args.maxSteps = some 0 := by
  have hfree : start.breakpoints = .new := install_breakpoints hstart
  have hsound := (install_reachable (.new _) hstart).sound
  have hnone : args.maxSteps = some 0 ↔ args.budget = some 0 := by
    rw [Args.budget, Option.map_eq_some_iff]
    constructor
    · intro hzero
      exact ⟨0, hzero, rfl⟩
    · rintro ⟨limit, hlimit, hzero⟩
      rw [hlimit, BitVec.eq_of_toNat_eq (y := 0) hzero]
  constructor
  · intro hagree
    by_cases hrefresh : args.refresh = 0
    · right
      have hanimate : Driver.animate ∈ drivers speed clock := by simp [drivers]
      rcases hagree.ways _ hanimate _ _ (animate_refresh_zero start hrefresh) with
        ⟨vm, hhalts⟩ | ⟨vm, fault, hfaults⟩ | ⟨vm, limit, -, hlimit, hzero⟩
      · cases hhalts
      · cases hfaults
      · rw [hnone, Args.budget, hlimit]
        exact congrArg some hzero.symm
    · exact .inl hrefresh
  · intro hrefresh
    rw [hnone] at hrefresh
    have hwhole : ∀ driver ∈ drivers speed clock, driver.IsWhole args start :=
      isWhole alwaysReady_stdinIo hfree hfair hrefresh
    refine ⟨?_, ?_, ?_⟩
    · intro driver hdriver other hother executed h
      rw [(hwhole driver hdriver).executes] at h
      exact ((hwhole other hother).executes executed).mpr h
    · intro driver hdriver other hother executed ending h
      exact ((hwhole other hother).ends executed _).mpr
        (((hwhole driver hdriver).ends executed _).mp ⟨ending, h, rfl⟩)
    · intro driver hdriver executed ending h
      rcases whole_ends alwaysReady_stdinIo hfree hsound
        (((hwhole driver hdriver).ends executed _).mp ⟨ending, h, rfl⟩) with
        hhalts | hfaults | ⟨vm, hspent, hbudget⟩
      · exact .inl hhalts
      · exact .inr (.inl hfaults)
      · obtain ⟨limit, hlimit, hcount⟩ := Option.map_eq_some_iff.mp hbudget
        exact .inr (.inr ⟨vm, limit, hspent, hlimit, hcount.symm⟩)

/-- The program that halts at once. -/
def haltAtOnce : Program := ⟨[0x7000], 0, 0, false⟩

theorem drivers_agree_halt : ∃ start,
    haltAtOnce.install (.new (StdinIo.withMode .word [])) = .ok start ∧
    Agree ⟨none, 3000⟩ start ⟨0⟩ (fun _ => false) := by
  refine ⟨_, rfl, ?_⟩
  apply (drivers_agree haltAtOnce .word [] rfl ⟨none, 3000⟩ ⟨0⟩
    fun reads => ⟨reads, le_rfl, rfl⟩).mpr
  exact .inl (by decide)

/-- At full speed the program halts. With the display it is told that it has reached a limit that
was never given. -/
theorem drivers_agree_refresh_zero : ∃ start,
    haltAtOnce.install (.new (StdinIo.withMode .word [])) = .ok start ∧
    (∃ ending, Driver.uninterrupted.EndsWith ⟨none, 0⟩ start [] ending ∧
      ending.report.isNone = true) ∧
    (∃ ending, Driver.animate.EndsWith ⟨none, 0⟩ start [] ending ∧
      ending.report.map Report.message = some "step limit reached") ∧
    ¬Agree ⟨none, 0⟩ start ⟨0⟩ (fun _ => false) := by
  refine ⟨_, rfl, ?_, ⟨_, animate_refresh_zero _ rfl, rfl⟩, ?_⟩
  · exact ⟨_, uninterrupted_halts 0 rfl, rfl⟩
  · intro hagree
    rcases hagree.ways .animate (by simp [drivers]) _ _ (animate_refresh_zero _ rfl) with
      ⟨vm, hhalts⟩ | ⟨vm, fault, hfaults⟩ | ⟨vm, limit, -, hlimit, -⟩
    · cases hhalts
    · cases hfaults
    · cases hlimit

end MarieRs.Cli
