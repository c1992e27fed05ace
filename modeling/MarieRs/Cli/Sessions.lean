import MarieRs.Cli.Debugger
import MarieRs.Cli.Drivers

namespace MarieRs.Cli

open Vm
open MarieVMCore (Reachable Runs Sound)

/-- What every move of the machine in a session keeps. -/
structure Kept (P : MarieVMCore ReplayIo → Prop) : Prop where
  microStep : ∀ vm, P vm → P vm.microStep.2
  microStepBack : ∀ vm, P vm → P vm.microStepBack.2
  breakpoints : ∀ vm (breakpoints : BreakpointSet), P vm → P { vm with breakpoints }
  stdin : ∀ vm (stdin : Stdin), P vm → P { vm with ioDevice := { vm.ioDevice with stdin } }

/-- It holds of the machine in the slot, if there is one. -/
def Held (P : MarieVMCore ReplayIo → Prop) (slot : Option Machine) : Prop :=
  ∀ machine, slot = some machine → P machine.vm

section Kept
variable {P : MarieVMCore ReplayIo → Prop} {vm : MarieVMCore ReplayIo}

theorem Kept.step (hkept : Kept P) (h : P vm) : P vm.step.2 :=
  MarieVMCore.step_keeps hkept.microStep h

theorem Kept.stepBack (hkept : Kept P) (h : P vm) : P vm.stepBack.2 :=
  MarieVMCore.stepBack_keeps hkept.microStepBack h

theorem Kept.resume (hkept : Kept P) (h : P vm) (slice slices : Nat) :
    P (vm.resume slice slices).machine := by
  induction slices generalizing vm with
  | zero => exact h
  | succ slices ih =>
    have hrun : Runs (some slice) vm (vm.runBounded slice) := MarieVMCore.runs_bounded.mpr rfl
    have hslice := MarieVMCore.run_keeps hkept.microStep hrun h
    unfold MarieVMCore.resume
    split
    · rename_i vm' hs
      rw [hs] at hslice
      exact ih hslice
    · exact hslice

theorem resume_no_panic (hsound : Sound vm) (slice slices : Nat) (vm' : MarieVMCore ReplayIo) :
    vm.resume slice slices ≠ .panicked vm' := by
  induction slices generalizing vm with
  | zero => simp [MarieVMCore.resume]
  | succ slices ih =>
    have hrun : Runs (some slice) vm (vm.runBounded slice) := MarieVMCore.runs_bounded.mpr rfl
    have hslice := MarieVMCore.run_keeps (fun _ => Sound.microStep) hrun hsound
    unfold MarieVMCore.resume
    split
    · rename_i hs
      rw [hs] at hslice
      exact ih hslice
    · exact MarieVMCore.Sound.run_no_panic hrun hsound vm'

variable {context : Context} {slot : Option Machine}

theorem held_some {machine : Machine} (h : P machine.vm) : Held P (some machine) := by
  intro other hother
  cases hother
  exact h

theorem step_holds (hkept : Kept P) (h : Held P slot) : Held P (step context slot).machine := by
  unfold step
  split
  · have hnext := hkept.step (h _ rfl)
    split
    all_goals
      rename_i hs
      rw [Machine.vm, hs] at hnext
      exact held_some hnext
  · exact h

theorem microStep_holds (hkept : Kept P) (h : Held P slot) :
    Held P (microStep context slot).machine := by
  unfold microStep
  split
  · have hnext := hkept.microStep _ (h _ rfl)
    split
    all_goals
      rename_i hs
      rw [Machine.vm, hs] at hnext
      exact held_some hnext
  · exact h

theorem stepBack_holds (hkept : Kept P) (h : Held P slot) (micro : Bool) :
    Held P (stepBack context micro slot).machine := by
  have hhanded : Held P (handBack slot) := by
    unfold handBack
    split
    · rename_i vm
      exact held_some (h (.terminated vm) rfl)
    · exact h
  unfold stepBack
  split
  · rename_i vm hslot
    have hvm : P vm := hhanded _ hslot
    cases micro with
    | true =>
      have hback := hkept.microStepBack _ hvm
      rw [if_pos rfl]
      split
      all_goals
        rename_i hs
        rw [hs] at hback
        exact held_some hback
    | false =>
      have hback := hkept.stepBack hvm
      rw [if_neg (by simp)]
      split
      all_goals
        rename_i hs
        rw [hs] at hback
        exact held_some hback
  · exact hhanded

theorem resume_holds (hkept : Kept P) (h : Held P slot) (slices : Nat) :
    Held P (resume context slices slot).machine := by
  unfold resume
  split
  · have hnext := hkept.resume (h _ rfl) RESUME_SLICE slices
    split
    all_goals
      rename_i hs
      rw [Machine.vm, hs] at hnext
      exact held_some hnext
  · intro machine hmachine
    cases hmachine

theorem breakpoint_holds (hkept : Kept P) (h : Held P slot) (insert : Bool)
    (argument : Option Str) : Held P (breakpoint insert slot argument).machine := by
  have hset : ∀ (machine : Machine) (breakpoints : BreakpointSet), slot = some machine →
      Held P (some (machine.map fun vm => { vm with breakpoints })) := by
    intro machine breakpoints hslot
    apply held_some
    rw [Machine.vm_map]
    exact hkept.breakpoints _ breakpoints (h _ hslot)
  unfold breakpoint
  split
  · exact h
  · split
    · exact h
    · split
      · exact h
      · rename_i machine
        cases insert
        · exact hset machine _ rfl
        · exact hset machine _ rfl

theorem command_holds (hkept : Kept P) (h : Held P slot) (slices : Nat) (line : Str) :
    Held P (command context slices line slot).machine := by
  simp only [command]
  split
  · rename_i verb _
    cases verb with
    | step => exact step_holds hkept h
    | stepi => exact microStep_holds hkept h
    | back => exact stepBack_holds hkept h false
    | backi => exact stepBack_holds hkept h true
    | continue_ => exact resume_holds hkept h slices
    | break_ => exact breakpoint_holds hkept h true _
    | delete => exact breakpoint_holds hkept h false _
    | help | quit | regs | mem | display | list | breaks => exact h
  · exact h

theorem step_flow (hsound : Held Sound slot) : (step context slot).flow ≠ .panicked := by
  unfold step
  split
  · have hcalm := (hsound _ rfl).step_no_panic
    split
    case h_5 hs =>
      rw [Machine.vm, hs] at hcalm
      exact absurd rfl hcalm
    all_goals simp [arrive]
  · simp

theorem microStep_flow (hsound : Held Sound slot) :
    (microStep context slot).flow ≠ .panicked := by
  unfold microStep
  split
  · have hcalm := (hsound _ rfl).no_panic
    split
    case h_5 hs =>
      rw [Machine.vm, hs] at hcalm
      exact absurd rfl hcalm
    all_goals simp [arrive]
  · simp

theorem resume_flow (hsound : Held Sound slot) (slices : Nat) :
    (resume context slices slot).flow ≠ .panicked := by
  unfold resume
  split
  · have hcalm := resume_no_panic (hsound _ rfl) RESUME_SLICE slices
    split
    case h_5 hs => exact absurd hs (hcalm _)
    all_goals simp [arrive]
  · simp

theorem stepBack_flow (micro : Bool) : (stepBack context micro slot).flow ≠ .panicked := by
  unfold stepBack
  split
  · cases micro
    · rw [if_neg (by simp)]
      split <;> simp [arrive]
    · rw [if_pos rfl]
      split <;> simp [arrive]
  · simp

theorem breakpoint_flow (insert : Bool) (argument : Option Str) :
    (breakpoint insert slot argument).flow ≠ .panicked := by
  unfold breakpoint
  split
  · simp
  · split
    · simp
    · split
      · simp
      · cases insert <;> simp

theorem command_flow (hsound : Held Sound slot) (slices : Nat) (line : Str) :
    (command context slices line slot).flow ≠ .panicked := by
  simp only [command]
  split
  · rename_i verb _
    cases verb with
    | step => exact step_flow hsound
    | stepi => exact microStep_flow hsound
    | continue_ => exact resume_flow hsound slices
    | back | backi => exact stepBack_flow _
    | break_ | delete => exact breakpoint_flow _ _
    | help | quit | regs | mem | display | list | breaks => simp [perform]
  · simp

end Kept

section Slot
variable {context : Context} {slot : Option Machine}

/-- The verb of a line, if it has a known one. -/
def verbOf (line : Str) : Option Verb :=
  Verb.named (((Lsp.splitWhitespace line).head?).getD [])

theorem step_slot : (step context slot).machine = none ↔ slot = none := by
  unfold step
  split
  · split <;> simp [arrive]
  · rfl

theorem microStep_slot : (microStep context slot).machine = none ↔ slot = none := by
  unfold microStep
  split
  · split <;> simp [arrive]
  · rfl

theorem stepBack_slot (micro : Bool) :
    (stepBack context micro slot).machine = none ↔ slot = none := by
  have hhanded : handBack slot = none ↔ slot = none := by
    unfold handBack
    split <;> simp
  rw [← hhanded]
  unfold stepBack
  split
  · rename_i vm hslot
    rw [hslot]
    cases micro
    · rw [if_neg (by simp)]
      split <;> simp [arrive]
    · rw [if_pos rfl]
      split <;> simp [arrive]
  · rfl

/-- To go on, the machine has to be there and not stopped. -/
theorem resume_slot (slices : Nat) :
    (resume context slices slot).machine = none ↔
      slot = none ∨ ∃ vm, slot = some (.terminated vm) := by
  unfold resume
  split
  · split <;> simp [arrive]
  · rename_i hnot
    cases slot with
    | none => simp
    | some machine =>
      cases machine with
      | stepping vm => exact absurd rfl (hnot vm)
      | terminated vm => simp

theorem breakpoint_slot (insert : Bool) (argument : Option Str) :
    (breakpoint insert slot argument).machine = none ↔ slot = none := by
  unfold breakpoint
  split
  · rfl
  · split
    · rfl
    · split
      · simp
      · cases insert <;> simp

/-- Only `continue` empties the slot. -/
theorem command_slot (slices : Nat) (line : Str) :
    (command context slices line slot).machine = none ↔
      slot = none ∨ verbOf line = some .continue_ ∧ ∃ vm, slot = some (.terminated vm) := by
  simp only [command]
  unfold verbOf
  split
  · rename_i verb hverb
    rw [hverb]
    cases verb with
    | continue_ => simp [perform, resume_slot]
    | step => simp [perform, step_slot]
    | stepi => simp [perform, microStep_slot]
    | back | backi => simp [perform, stepBack_slot]
    | break_ | delete => simp [perform, breakpoint_slot]
    | help | quit | regs | mem | display | list | breaks => simp [perform]
  · rename_i hverb
    rw [hverb]
    simp

end Slot

theorem install_kept {program : Program} {vm vm' : MarieVMCore ReplayIo}
    (h : program.install vm = .ok vm') :
    vm'.history.entries = [] ∧ vm'.ioDevice = vm.ioDevice := by
  rw [Program.install] at h
  split at h
  · cases h
    exact ⟨rfl, rfl⟩
  · split at h
    · cases h
    · rename_i loaded hload
      obtain ⟨memory, -, rfl⟩ := MarieVMCore.loadProgram_ok hload
      split at h
      all_goals
        cases h
        exact ⟨rfl, rfl⟩

theorem kept_sound : Kept Sound where
  microStep := fun _ => Sound.microStep
  microStepBack := fun _ => Sound.microStepBack
  breakpoints := fun _ _ h => ⟨h.control, h.journal⟩
  stdin := fun _ _ h => ⟨h.control, h.journal⟩

namespace Debugger

variable {context : Context}

/-- One prompt and the next, wherever it is interrupted. -/
def Goes (context : Context) (debugger debugger' : Debugger) : Prop :=
  ∃ slices printed, debugger.prompt context slices = .goesOn printed debugger'

/-- At this prompt a stopped machine is told to continue. -/
def Forfeits (debugger : Debugger) : Prop :=
  ∃ typed rest vm, debugger.stdin = .ok typed :: rest ∧
    debugger.machine = some (.terminated vm) ∧ verbOf (trim typed.text) = some .continue_

/-- The machine, when the terminal was read up to here. -/
def readTo (debugger : Debugger) (stdin : Stdin) : Option Machine :=
  debugger.machine.map (Machine.map fun vm => { vm with ioDevice := { vm.ioDevice with stdin } })

/-- A line that is run, or an empty one. -/
theorem Goes.cases {debugger debugger' : Debugger} (h : Goes context debugger debugger') :
    ∃ typed stdin, debugger.stdin = .ok typed :: stdin ∧
      (trim typed.text = [] ∧ debugger'.machine = debugger.readTo stdin ∨
        trim typed.text ≠ [] ∧ ∃ slices, debugger'.machine =
          (command context slices (trim typed.text) (debugger.readTo stdin)).machine) := by
  obtain ⟨slices, printed, h⟩ := h
  unfold prompt at h
  split at h
  · cases h
  · cases h
  · rename_i typed stdin hstdin
    refine ⟨typed, stdin, hstdin, ?_⟩
    simp only at h
    split at h
    · rename_i hblank
      cases h
      exact .inl ⟨hblank, rfl⟩
    · rename_i hline
      split at h
      · cases h
        exact .inr ⟨hline, slices, rfl⟩
      · cases h
      · cases h

theorem readTo_holds {P : MarieVMCore ReplayIo → Prop} (hkept : Kept P) {debugger : Debugger}
    (h : Held P debugger.machine) (stdin : Stdin) : Held P (debugger.readTo stdin) := by
  intro machine hmap
  obtain ⟨machine', hslot, rfl⟩ := Option.map_eq_some_iff.mp hmap
  rw [Machine.vm_map]
  exact hkept.stdin _ stdin (h _ hslot)

/-- What every move keeps holds on. -/
theorem Goes.holds {P : MarieVMCore ReplayIo → Prop} (hkept : Kept P)
    {debugger debugger' : Debugger} (h : Goes context debugger debugger')
    (hmachine : Held P debugger.machine) : Held P debugger'.machine := by
  obtain ⟨typed, stdin, -, ⟨-, hsame⟩ | ⟨-, slices, hcommand⟩⟩ := h.cases
  · rw [hsame]
    exact readTo_holds hkept hmachine stdin
  · rw [hcommand]
    exact command_holds hkept (readTo_holds hkept hmachine stdin) slices _

theorem prompt_no_panic {debugger : Debugger} (hsound : Held Sound debugger.machine)
    (slices : Nat) : debugger.prompt context slices ≠ .panicked := by
  unfold prompt
  split
  · simp
  · simp
  · rename_i typed stdin _
    have hflow : (command context slices (trim typed.text) (debugger.readTo stdin)).flow ≠
        .panicked := command_flow (readTo_holds kept_sound hsound stdin) slices _
    intro hpanic
    simp only at hpanic
    split at hpanic
    · cases hpanic
    · split at hpanic
      · cases hpanic
      · cases hpanic
      · rename_i hs
        exact hflow hs

/-- One prompt loses the machine exactly if it forfeits it, or it was lost. -/
theorem Goes.machine {debugger debugger' : Debugger} (h : Goes context debugger debugger') :
    debugger'.machine = none ↔ debugger.machine = none ∨ debugger.Forfeits := by
  obtain ⟨typed, stdin, hstdin, ⟨hblank, hmachine⟩ | ⟨hline, slices, hmachine⟩⟩ := h.cases
  all_goals unfold readTo at hmachine
  · have hverb : verbOf (trim typed.text) = none := by
      rw [hblank]
      decide
    rw [hmachine, Option.map_eq_none_iff]
    refine ⟨.inl, fun h => h.elim id fun ⟨typed', rest, vm, htyped, _, hcontinue⟩ => ?_⟩
    rw [hstdin] at htyped
    cases htyped
    rw [hverb] at hcontinue
    cases hcontinue
  · rw [hmachine, command_slot, Option.map_eq_none_iff]
    refine or_congr Iff.rfl ⟨?_, ?_⟩
    · rintro ⟨hverb, vm, hvm⟩
      obtain ⟨machine, hslot, hmap⟩ := Option.map_eq_some_iff.mp hvm
      cases machine with
      | stepping vm' => cases hmap
      | terminated vm' => exact ⟨typed, stdin, vm', hstdin, hslot, hverb⟩
    · rintro ⟨typed', rest, vm, htyped, hslot, hverb⟩
      rw [hstdin] at htyped
      cases htyped
      refine ⟨hverb, ?_⟩
      rw [hslot]
      exact ⟨_, rfl⟩

/-- A session starts on a machine with the program in it, nothing journalled and nothing read. -/
theorem start_machine {program : Program} {args : Args} {stdin : Stdin} {first : Debugger}
    (h : start program args stdin = .ok first) :
    ∃ vm, first.machine = some (.stepping vm) ∧ Reachable .ready vm ∧
      vm.history.entries = [] ∧ vm.ioDevice = .new args.input stdin := by
  unfold start at h
  split at h
  · cases h
  · rename_i loaded hload
    simp only at h
    split at h
    · cases h
    · rename_i breakpoints _
      cases h
      have hloaded := install_reachable (.new (ReplayIo.new args.input stdin)) hload
      refine ⟨_, rfl, (hloaded.call (.setHistoryLimit _ _ args.history)).call
        (.breakpointsMut _ _ breakpoints), ?_, ?_⟩
      · change (loaded.history.setLimit args.history).entries = []
        rw [History.setLimit_entries, (install_kept hload).1, List.drop_nil]
      · exact (install_kept hload).2

/-- The moments of a session, of which each shows a prompt; for every prompt there is a number of
slices after which Ctrl-C is noticed, should it come to that. -/
def moments (context : Context) : List Nat → Debugger → List Debugger
  | [], debugger => [debugger]
  | slices :: rest, debugger =>
    debugger :: match debugger.prompt context slices with
      | .goesOn _ debugger' => moments context rest debugger'
      | .left | .panicked => []

/-- A moment after the first one is a moment of the session that goes on from the next. -/
theorem moments_succ {slices : List Nat} {first now : Debugger} {i : Nat}
    (h : (moments context slices first)[i + 1]? = some now) :
    ∃ next rest, Goes context first next ∧ (moments context rest next)[i]? = some now ∧
      moments context slices first = first :: moments context rest next := by
  cases slices with
  | nil => cases h
  | cons patience rest =>
    rw [moments] at h ⊢
    cases hprompt : first.prompt context patience with
    | left | panicked =>
      rw [hprompt] at h
      cases h
    | goesOn printed next =>
      rw [hprompt] at h
      exact ⟨next, rest, ⟨patience, printed, hprompt⟩, h, rfl⟩

theorem moments_zero (slices : List Nat) (first : Debugger) :
    (moments context slices first)[0]? = some first := by
  cases slices <;> rfl

/-- What every move keeps holds at every moment. -/
theorem moments_holds {P : MarieVMCore ReplayIo → Prop} (hkept : Kept P) {slices : List Nat}
    {first now : Debugger} {i : Nat} (hnow : (moments context slices first)[i]? = some now)
    (hfirst : Held P first.machine) : Held P now.machine := by
  induction i generalizing slices first with
  | zero =>
    rw [moments_zero] at hnow
    cases hnow
    exact hfirst
  | succ i ih =>
    obtain ⟨next, rest, hgoes, hrest, -⟩ := moments_succ hnow
    exact ih hrest (hgoes.holds hkept hfirst)

theorem moments_machine {slices : List Nat} {first now : Debugger} {i : Nat}
    (hnow : (moments context slices first)[i]? = some now) :
    now.machine = none ↔ first.machine = none ∨
      ∃ j < i, ∃ earlier, (moments context slices first)[j]? = some earlier ∧
        earlier.Forfeits := by
  induction i generalizing slices first with
  | zero =>
    rw [moments_zero] at hnow
    cases hnow
    simp
  | succ i ih =>
    obtain ⟨next, rest, hgoes, hrest, hmoments⟩ := moments_succ hnow
    rw [ih hrest, hgoes.machine, hmoments, or_assoc]
    refine or_congr Iff.rfl ⟨?_, ?_⟩
    · rintro (hforfeits | ⟨j, hj, earlier, hearlier, hforfeits⟩)
      · exact ⟨0, by omega, first, rfl, hforfeits⟩
      · exact ⟨j + 1, by omega, earlier, hearlier, hforfeits⟩
    · rintro ⟨j, hj, earlier, hearlier, hforfeits⟩
      cases j with
      | zero =>
        cases hearlier
        exact .inl hforfeits
      | succ j => exact .inr ⟨j, by omega, earlier, hearlier, hforfeits⟩

/-- No prompt panics, and the machine is gone exactly if it had stopped at some earlier moment and
was told to continue: nothing brings it back. -/
theorem machine_lost {program : Program} {args : Args} {stdin : Stdin} {first : Debugger}
    (hstart : start program args stdin = .ok first) (slices : List Nat) {i : Nat} {now : Debugger}
    (hnow : (moments context slices first)[i]? = some now) :
    (∀ patience, now.prompt context patience ≠ .panicked) ∧
    (now.machine = none ↔
      ∃ j < i, ∃ earlier, (moments context slices first)[j]? = some earlier ∧
        earlier.Forfeits) := by
  obtain ⟨vm, hfirst, hreachable, -⟩ := start_machine hstart
  have hsound : Held Sound first.machine := by
    rw [hfirst]
    exact held_some hreachable.sound
  refine ⟨prompt_no_panic (moments_holds kept_sound hnow hsound), ?_⟩
  rw [moments_machine hnow, hfirst]
  simp

/-- As many micro-operations. -/
def operations (count : Nat) : Stdin := List.replicate count (.ok ⟨"si\n".toList, by decide⟩)

/-- Six micro-operations and a `continue`. -/
def haltAndContinue : Stdin := operations 6 ++ [.ok ⟨"c\n".toList, by decide⟩]

/-- The machine of a program that halts at once is lost when it is told to go on. -/
theorem machine_lost_halted : ∃ first,
    start haltAtOnce ⟨.word, 10, []⟩ haltAndContinue = .ok first ∧
    ∃ now, (moments ⟨none, none, false⟩ (List.replicate 7 0) first)[7]? = some now ∧
      now.machine = none := by
  have hlost : ∀ first, start haltAtOnce ⟨.word, 10, []⟩ haltAndContinue = .ok first →
      ∃ now, (moments ⟨none, none, false⟩ (List.replicate 7 0) first)[7]? = some now ∧
        now.machine = none := by
    intro first hstart
    obtain ⟨now, hnow⟩ : ∃ now,
        (moments ⟨none, none, false⟩ (List.replicate 7 0) first)[7]? = some now := by
      cases hstart
      exact ⟨_, rfl⟩
    refine ⟨now, hnow, (machine_lost hstart (List.replicate 7 0) hnow).2.mpr ⟨6, by decide, ?_⟩⟩
    cases hstart
    exact ⟨_, rfl, _, _, _, rfl, rfl, by decide⟩
  exact ⟨_, rfl, hlost _ rfl⟩

end Debugger

end MarieRs.Cli
