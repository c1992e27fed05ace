import MarieRs.Vm.Stalls
import MarieRs.Vm.Stopping

namespace MarieRs.Vm

namespace MarieVMCore

variable {D : Type} [MarieVmIODevice D]

/-- `n` micro-steps lead to the outcome. A breakpoint is looked for where an instruction of the
same call was completed just before. -/
inductive Proceeds : Bool → MarieVMCore D → Nat → RunOutcome D → Prop where
  | breakpoint {vm : MarieVMCore D} (h : vm.atBreakpoint = true) :
    Proceeds true vm 0 (.suspended vm (.breakpoint vm.registers.pc))
  | executed {checked : Bool} {vm vm' : MarieVMCore D} {op : MicroOp} {n : Nat}
    {outcome : RunOutcome D} (hgo : checked = true → vm.atBreakpoint = false)
    (hs : vm.microStep = (.executed op, vm'))
    (hrest : Proceeds (vm'.microPc == 0) vm' n outcome) : Proceeds checked vm (n + 1) outcome
  | awaiting {checked : Bool} {vm vm' : MarieVMCore D} {n : Nat} {outcome : RunOutcome D}
    (hgo : checked = true → vm.atBreakpoint = false) (hs : vm.microStep = (.awaitingInput, vm'))
    (hrest : Proceeds false vm' n outcome) : Proceeds checked vm (n + 1) outcome
  | stops {checked : Bool} {vm vm' : MarieVMCore D} {stop : MicroOutcome}
    (hgo : checked = true → vm.atBreakpoint = false) (hs : vm.microStep = (stop, vm'))
    (hstop : ∀ op, stop ≠ .executed op) (hready : stop ≠ .awaitingInput) :
    Proceeds checked vm 1 (.ofStop stop vm')

theorem Proceeds.unchecked {checked : Bool} {vm : MarieVMCore D} {n : Nat} {outcome : RunOutcome D}
    (h : Proceeds false vm n outcome) (hgo : checked = true → vm.atBreakpoint = false) :
    Proceeds checked vm n outcome := by
  cases h with
  | executed _ hs hrest => exact .executed hgo hs hrest
  | awaiting _ hs hrest => exact .awaiting hgo hs hrest
  | stops _ hs hstop hready => exact .stops hgo hs hstop hready

theorem Finishes.proceeds {vm s : MarieVMCore D} {n m : Nat} {outcome : RunOutcome D}
    (h : Finishes vm n s) (hrest : Proceeds true s m outcome) {checked : Bool}
    (hgo : checked = true → vm.atBreakpoint = false) :
    Proceeds checked vm (m + n) outcome := by
  induction h generalizing checked with
  | last hs hz =>
    refine .executed hgo hs ?_
    rw [hz]
    exact hrest
  | next hs hz hfinishes ih =>
    refine .executed hgo hs ?_
    rw [beq_false_of_ne hz]
    exact ih hrest fun h => by cases h

theorem StopsAfter.proceeds {vm s : MarieVMCore D} {n : Nat} {stop : MicroOutcome}
    (h : StopsAfter vm n stop s) {checked : Bool}
    (hgo : checked = true → vm.atBreakpoint = false) :
    (stop ≠ .awaitingInput → Proceeds checked vm (n + 1) (.ofStop stop s)) ∧
    ∀ m outcome, stop = .awaitingInput → Proceeds false s m outcome →
      Proceeds checked vm (m + n + 1) outcome := by
  induction h generalizing checked with
  | now hs hstop =>
    refine ⟨fun hready => .stops hgo hs hstop hready, ?_⟩
    rintro m outcome rfl hrest
    exact .awaiting hgo hs hrest
  | @next vm vm' after op n stop hs hz hstops ih =>
    obtain ⟨hends, hawaits⟩ := ih fun h : false = true => by cases h
    have hon : ∀ {k : Nat} {outcome : RunOutcome D}, Proceeds false vm' k outcome →
        Proceeds checked vm (k + 1) outcome := by
      intro k outcome hrest
      refine .executed hgo hs ?_
      rw [beq_false_of_ne hz]
      exact hrest
    exact ⟨fun hready => hon (hends hready),
      fun m outcome hstop hrest => hon (hawaits m outcome hstop hrest)⟩

/-- What the passes of a call are in micro-steps. -/
theorem RunInner.proceeds {executed : Nat} {vm : MarieVMCore D} {outcome : RunOutcome D}
    (h : RunInner none executed vm outcome) :
    (¬outcome.Awaiting → ∃ n, Proceeds (decide (executed > 0)) vm n outcome) ∧
    ∀ vm', outcome = .suspended vm' .awaitingInput → ∀ n final, Proceeds false vm' n final →
      ∃ m, Proceeds (decide (executed > 0)) vm m final := by
  induction h with
  | @ends executed vm outcome hpass =>
    rw [runPass_none] at hpass
    split at hpass
    · rename_i hat
      cases hpass
      rw [decide_eq_true hat.1]
      refine ⟨fun _ => ⟨0, .breakpoint hat.2⟩, ?_⟩
      rintro vm' ⟨⟩
    · rename_i hat
      have hgo : decide (executed > 0) = true → vm.atBreakpoint = false := fun hpos =>
        Bool.eq_false_iff.mpr fun hbreak => hat ⟨of_decide_eq_true hpos, hbreak⟩
      rcases vm.step_cases with ⟨n, s, hfinishes⟩ | ⟨n, stop, s, hstops⟩
      · rw [hfinishes.step] at hpass
        cases hpass
      · obtain ⟨hends, hawaits⟩ := hstops.proceeds hgo
        rw [hstops.step] at hpass
        cases stop with
        | executed op => exact absurd rfl (hstops.microSteps.1 op)
        | awaitingInput =>
          cases hpass
          refine ⟨fun hnot => absurd ⟨_, rfl⟩ hnot, ?_⟩
          rintro vm' ⟨⟩ m final hrest
          exact ⟨_, hawaits m final rfl hrest⟩
        | halted | faulted fault | panicked =>
          cases hpass
          refine ⟨fun _ => ⟨_, hends (by simp)⟩, ?_⟩
          rintro vm' ⟨⟩
  | @goesOn executed vm next outcome hpass hrest ih =>
    rw [runPass_none] at hpass
    split at hpass
    · cases hpass
    · rename_i hat
      have hgo : decide (executed > 0) = true → vm.atBreakpoint = false := fun hpos =>
        Bool.eq_false_iff.mpr fun hbreak => hat ⟨of_decide_eq_true hpos, hbreak⟩
      rcases vm.step_cases with ⟨n, s, hfinishes⟩ | ⟨n, stop, s, hstops⟩
      · rw [hfinishes.step] at hpass
        cases hpass
        rw [decide_eq_true (Nat.succ_pos executed)] at ih
        refine ⟨fun hnot => ?_, fun vm' heq m final hfinal => ?_⟩
        · obtain ⟨m, hm⟩ := ih.1 hnot
          exact ⟨_, hfinishes.proceeds hm hgo⟩
        · obtain ⟨k, hk⟩ := ih.2 vm' heq m final hfinal
          exact ⟨_, hfinishes.proceeds hk hgo⟩
      · rw [hstops.step] at hpass
        cases stop with
        | executed op => exact absurd rfl (hstops.microSteps.1 op)
        | halted | awaitingInput | faulted fault | panicked => cases hpass

theorem RunThrough.proceeds {executed : Nat} {vm : MarieVMCore D} {outcome : RunOutcome D}
    (h : RunThrough executed vm outcome) : ∃ n, Proceeds (decide (executed > 0)) vm n outcome := by
  induction h with
  | ends h hnot => exact h.proceeds.1 hnot
  | awaiting h hrest ih =>
    obtain ⟨n, hn⟩ := ih
    exact h.proceeds.2 _ rfl n _ hn

theorem RunThrough.inside {executed : Nat} {vm vm' : MarieVMCore D} {outcome : RunOutcome D}
    (hsame : runPass none executed vm = runPass none 0 vm') (h : RunThrough 0 vm' outcome) :
    RunThrough executed vm outcome := by
  have hinner : ∀ {outcome : RunOutcome D}, RunInner none 0 vm' outcome →
      RunInner none executed vm outcome := by
    intro outcome hrun
    cases hrun with
    | ends hpass => exact .ends (hsame.trans hpass)
    | goesOn hpass hrest => exact .goesOn (hsame.trans hpass) hrest.executed
  cases h with
  | ends hrun hnot => exact .ends (hinner hrun) hnot
  | awaiting hrun hrest => exact .awaiting (hinner hrun) hrest

theorem Proceeds.runThrough {checked : Bool} {vm : MarieVMCore D} {n : Nat}
    {outcome : RunOutcome D} (h : Proceeds checked vm n outcome) :
    RunThrough checked.toNat vm outcome := by
  have hpass : ∀ {checked : Bool} {vm : MarieVMCore D},
      (checked = true → vm.atBreakpoint = false) →
      runPass none checked.toNat vm = passed vm.step := by
    intro checked vm hgo
    rw [runPass_none, if_neg]
    rintro ⟨hpos, hbreak⟩
    cases checked with
    | false => exact absurd hpos (lt_irrefl 0)
    | true =>
      rw [hgo rfl] at hbreak
      cases hbreak
  induction h with
  | @breakpoint vm h =>
    have hhere : runPass none 1 vm = .inl (.suspended vm (.breakpoint vm.registers.pc)) := by
      rw [runPass_none, if_pos ⟨Nat.one_pos, h⟩]
    refine .ends (.ends hhere) ?_
    rintro ⟨_, hawaiting⟩
    cases hawaiting
  | @executed checked vm vm' op n outcome hgo hs hrest ih =>
    by_cases hz : vm'.microPc = 0
    · rw [hz] at ih
      have hon := hpass hgo
      rw [step_boundary hs hz] at hon
      have hnext : RunThrough (0 + 1) vm' outcome := ih
      exact .goesOn hon hnext.executed
    · rw [beq_false_of_ne hz] at ih
      refine .inside ?_ ih
      rw [hpass hgo, step_inner hs hz, runPass_none, if_neg (by simp)]
  | @awaiting checked vm vm' n outcome hgo hs hrest ih =>
    have hsuspended := hpass hgo
    rw [step_stop hs (by simp)] at hsuspended
    exact .awaiting (.ends hsuspended) ih
  | @stops checked vm vm' stop hgo hs hstop hready =>
    have hends := hpass hgo
    rw [step_stop hs hstop] at hends
    cases stop with
    | executed op => exact absurd rfl (hstop op)
    | awaitingInput => exact absurd rfl hready
    | halted | faulted fault | panicked =>
      refine .ends (.ends hends) ?_
      rintro ⟨_, hawaiting⟩
      cases hawaiting

end MarieVMCore

end MarieRs.Vm
