import MarieRs.Lib.Stuttering
import MarieRs.Vm.Resumed
import MarieRs.Vm.Reverse

namespace MarieRs.Vm

open Lib

/-- Forces `stall` pending polls before each one that is delegated. -/
structure Flaky (D : Type) where
  inner : D
  stall : Nat
  remaining : Nat

namespace Flaky

variable {D : Type}

def new (inner : D) (stall : Nat) : Flaky D where
  inner := inner
  stall := stall
  remaining := stall

-- `display_write` is not among the methods: the default ignores it.
instance [MarieVmIODevice D] : MarieVmIODevice (Flaky D) where
  pollInput io :=
    if io.remaining > 0 then (.pending, { io with remaining := io.remaining - 1 })
    else
      let (answer, inner) := MarieVmIODevice.pollInput io.inner
      (answer, { io with inner, remaining := io.stall })
  output io value :=
    let (answer, inner) := MarieVmIODevice.output io.inner value
    (answer, { io with inner })
  unreadInput io value :=
    match MarieVmIODevice.unreadInput io.inner value with
    | (true, inner) => (true, { io with inner, remaining := io.stall })
    | (false, inner) => (false, { io with inner })
  unwriteOutput io value :=
    let (accepted, inner) := MarieVmIODevice.unwriteOutput io.inner value
    (accepted, { io with inner })

end Flaky

/-- A call that a device receives. -/
inductive Received where
  | pollInput
  | output (value : Word)
  | unreadInput (value : Word)
  | unwriteOutput (value : Word)
  | displayWrite (index : Nat) (pixel : Rgb555)
  deriving DecidableEq, Repr

def Received.isDisplay : Received → Bool
  | .displayWrite _ _ => true
  | _ => false

/-- Any device, with the calls it received, latest first. -/
structure Recording (D : Type) where
  device : D
  calls : List Received

namespace Recording

variable {D : Type}

instance [MarieVmIODevice D] : MarieVmIODevice (Recording D) where
  pollInput io :=
    let (answer, device) := MarieVmIODevice.pollInput io.device
    (answer, ⟨device, .pollInput :: io.calls⟩)
  output io value :=
    let (answer, device) := MarieVmIODevice.output io.device value
    (answer, ⟨device, .output value :: io.calls⟩)
  unreadInput io value :=
    let (accepted, device) := MarieVmIODevice.unreadInput io.device value
    (accepted, ⟨device, .unreadInput value :: io.calls⟩)
  unwriteOutput io value :=
    let (accepted, device) := MarieVmIODevice.unwriteOutput io.device value
    (accepted, ⟨device, .unwriteOutput value :: io.calls⟩)
  displayWrite io index pixel :=
    ⟨MarieVmIODevice.displayWrite io.device index pixel, .displayWrite index pixel :: io.calls⟩

/-- How often the device was told of a pixel. -/
def displays (io : Recording D) : Nat := io.calls.countP Received.isDisplay

end Recording

namespace MarieVMCore

variable {D : Type}

/-- The same machine, attached to the wrapped device itself. -/
def wrapped (vm : MarieVMCore (Flaky D)) : MarieVMCore D where
  registers := vm.registers
  memory := vm.memory
  ioDevice := vm.ioDevice.inner
  breakpoints := vm.breakpoints
  history := vm.history
  microPc := vm.microPc
  decoded := vm.decoded
  instructionAddress := vm.instructionAddress
  comparison := vm.comparison

end MarieVMCore

def RunOutcome.wrapped {D : Type} : RunOutcome (Flaky D) → RunOutcome D
  | .suspended vm reason => .suspended vm.wrapped reason
  | .terminated vm => .terminated vm.wrapped
  | .faulted vm fault => .faulted vm.wrapped fault
  | .panicked vm => .panicked vm.wrapped

namespace MarieVMCore

variable {D : Type}

/-- Storing `value` at `address` changes a pixel. -/
def ShowsPixel (vm : MarieVMCore D) (address : MemoryAddress) (value : Word) : Prop :=
  vm.memory address ≠ value ∧ pixelIndex address ≠ none

/-- The command changes a pixel of the display. -/
def Repaints (vm : MarieVMCore D) : Command → Prop
  | .microStep =>
    vm.currentMicroOp = some .writeMemory ∧ vm.ShowsPixel vm.registers.mar vm.registers.mbr
  | .microStepBack =>
    ∃ entry address previous, vm.history.last = some entry ∧
      entry.effect = .memory address previous ∧ vm.ShowsPixel address previous
  | .setHistoryLimit _ | .clearHistory => False

/-- The command polls, and only the stall goes down. -/
def stalls (vm : MarieVMCore (Flaky D)) : Command → Bool
  | .microStep => vm.currentMicroOp = some .readInput ∧ vm.ioDevice.remaining > 0
  | _ => false

theorem begin_wrapped (vm : MarieVMCore (Flaky D)) :
    vm.beginInstruction.wrapped = vm.wrapped.beginInstruction := by
  by_cases hz : vm.microPc = 0
  · simp [beginInstruction, wrapped, hz]
  · simp [beginInstruction, wrapped, hz]

section Device
variable [MarieVmIODevice D]

/-- What a command makes of a machine. -/
def obey (vm : MarieVMCore D) : Command → MarieVMCore D
  | .microStep => vm.microStep.2
  | .microStepBack => vm.microStepBack.2
  | .setHistoryLimit limit => vm.setHistoryLimit limit
  | .clearHistory => vm.clearHistory

/-- What commands one after the other make of it. -/
def obeyAll (vm : MarieVMCore D) (commands : List Command) : MarieVMCore D :=
  Stuttering.run obey vm commands

/-- The commands of a session that do more than run down the stall. -/
def undelayed (vm : MarieVMCore (Flaky D)) (commands : List Command) : List Command :=
  Stuttering.heard obey stalls vm commands

/-- No command of the session changes a pixel. -/
def Unpainted (vm : MarieVMCore D) (commands : List Command) : Prop :=
  Stuttering.Along obey (fun vm command => ¬vm.Repaints command) vm commands

theorem displayed_flaky (io : Flaky D) (address : MemoryAddress) (previous current : Word) :
    displayed io address previous current = io := by
  unfold displayed
  split
  · rfl
  · split
    · rfl
    · rfl

theorem displayed_unshown {vm : MarieVMCore D} {address : MemoryAddress} {value : Word}
    (h : ¬vm.ShowsPixel address value) (device : D) :
    displayed device address (vm.memory address) value = device := by
  unfold displayed
  split
  · rfl
  · rename_i hne
    split
    · rename_i index hindex
      exact absurd ⟨hne, by rw [hindex]; simp⟩ h
    · rfl

theorem execute_wrapped {vm vm' : MarieVMCore (Flaky D)} {op : MicroOp}
    {result : Except MicroOutcome Effect} (h : vm.executeMicroOp op = (result, vm'))
    (hpoll : op = .readInput → vm.ioDevice.remaining = 0)
    (hshow : op = .writeMemory → ¬vm.wrapped.ShowsPixel vm.registers.mar vm.registers.mbr) :
    vm.wrapped.executeMicroOp op = (result, vm'.wrapped) := by
  cases huses : op.usesDevice with
  | false =>
    obtain ⟨hdevice, hexecute⟩ := vm.execute_onto vm.ioDevice.inner huses
    rw [h] at hdevice hexecute
    have hsame : vm'.wrapped = vm'.onto vm.ioDevice.inner := by
      rw [← hdevice]
      rfl
    rw [hsame]
    exact hexecute
  | true =>
    cases op with
    | readInput =>
      have hnone : ¬vm.ioDevice.remaining > 0 := by
        rw [hpoll rfl]
        exact lt_irrefl 0
      simp only [executeMicroOp, MarieVmIODevice.pollInput, if_neg hnone] at h
      rcases hanswer : MarieVmIODevice.pollInput vm.ioDevice.inner with ⟨answer, device⟩
      have hinner : MarieVmIODevice.pollInput vm.wrapped.ioDevice = (answer, device) := hanswer
      rw [hanswer] at h
      simp only [executeMicroOp, hinner]
      cases answer with
      | pending =>
        cases h
        rfl
      | ready result =>
        cases result with
        | error error =>
          cases h
          rfl
        | ok value =>
          cases h
          rfl
    | writeOutput =>
      simp only [executeMicroOp, MarieVmIODevice.output] at h
      rcases hanswer : MarieVmIODevice.output vm.ioDevice.inner vm.registers.output with
        ⟨answer, device⟩
      have hinner : MarieVmIODevice.output vm.wrapped.ioDevice vm.wrapped.registers.output =
        (answer, device) := hanswer
      rw [hanswer] at h
      simp only [executeMicroOp, hinner]
      cases answer with
      | error error =>
        cases h
        rfl
      | ok value =>
        cases h
        rfl
    | writeMemory =>
      have hunshown := displayed_unshown (hshow rfl) vm.ioDevice.inner
      simp only [executeMicroOp, executeMicroOp.done, writeMemory_eq, displayed_flaky] at h ⊢
      cases h
      have hsame : displayed vm.wrapped.ioDevice vm.wrapped.registers.mar
          (vm.wrapped.memory vm.wrapped.registers.mar) vm.wrapped.registers.mbr =
          vm.ioDevice.inner := hunshown
      rw [hsame]
      rfl
    | decode | compare | skipIfComparison | halt | transfer | readMemory | incrementPc | add
    | subtract | loadImmediate => cases huses

/-- A stalled poll leaves all but the stall as it was. -/
theorem microStep_stalls {vm : MarieVMCore (Flaky D)} (h : vm.stalls .microStep = true) :
    vm.microStep.1 = .awaitingInput ∧ vm.microStep.2.wrapped = vm.wrapped ∧
      vm.microStep.2.ioDevice.remaining + 1 = vm.ioDevice.remaining := by
  obtain ⟨hop, hremaining⟩ : vm.currentMicroOp = some .readInput ∧ vm.ioDevice.remaining > 0 :=
    of_decide_eq_true h
  have he : vm.beginInstruction.executeMicroOp .readInput = (.error .awaitingInput,
      { vm.beginInstruction with
        ioDevice := { vm.ioDevice with remaining := vm.ioDevice.remaining - 1 } }) := by
    rw [begin_frame]
    simp only [executeMicroOp, MarieVmIODevice.pollInput, if_pos hremaining]
  rw [microStep_of_error hop he]
  refine ⟨rfl, ?_, ?_⟩
  · rw [begin_frame]
    rfl
  · change vm.ioDevice.remaining - 1 + 1 = _
    omega

/-- Any other micro-step does what it does without the stall, unless it changes a pixel. -/
theorem microStep_wrapped {vm : MarieVMCore (Flaky D)} (hstalls : vm.stalls .microStep = false)
    (hpaints : ¬vm.wrapped.Repaints .microStep) :
    vm.wrapped.microStep = (vm.microStep.1, vm.microStep.2.wrapped) := by
  have hcurrent : vm.wrapped.currentMicroOp = vm.currentMicroOp := rfl
  cases hop : vm.currentMicroOp with
  | none =>
    simp only [microStep, begin_currentMicroOp, hcurrent, hop, begin_wrapped]
  | some op =>
    rw [hop] at hcurrent
    rcases he : vm.beginInstruction.executeMicroOp op with ⟨result, core⟩
    have hpoll : op = .readInput → vm.beginInstruction.ioDevice.remaining = 0 := by
      rintro rfl
      have hnot : ¬(vm.currentMicroOp = some .readInput ∧ vm.ioDevice.remaining > 0) :=
        of_decide_eq_false hstalls
      rw [begin_frame]
      by_contra hpos
      exact hnot ⟨hop, Nat.pos_of_ne_zero hpos⟩
    have hshow : op = .writeMemory → ¬vm.beginInstruction.wrapped.ShowsPixel
        vm.beginInstruction.registers.mar vm.beginInstruction.registers.mbr := by
      rintro rfl hshows
      rw [begin_frame] at hshows
      exact hpaints ⟨hcurrent, hshows⟩
    have hinner := execute_wrapped he hpoll hshow
    rw [begin_wrapped] at hinner
    cases result with
    | ok effect =>
      rw [microStep_of_execute hop he, microStep_of_execute hcurrent hinner]
      rfl
    | error stop =>
      rw [microStep_of_error hop he, microStep_of_error hcurrent hinner]
      rfl

theorem microStepBack_wrapped {vm : MarieVMCore (Flaky D)}
    (hpaints : ¬vm.wrapped.Repaints .microStepBack) :
    vm.wrapped.microStepBack = (vm.microStepBack.1, vm.microStepBack.2.wrapped) := by
  have hsame : vm.wrapped.history.last = vm.history.last := rfl
  cases hlast : vm.history.last with
  | none => simp only [microStepBack, hsame, hlast]
  | some entry =>
    rw [hlast] at hsame
    obtain ⟨control, op, effect⟩ := entry
    cases effect with
    | none | register =>
      simp only [microStepBack, hsame, hlast]
      rfl
    | memory address previous =>
      have hquiet : ¬vm.wrapped.ShowsPixel address previous := fun hshows =>
        hpaints ⟨_, address, previous, hsame, rfl, hshows⟩
      have hunshown := displayed_unshown hquiet vm.ioDevice.inner
      have hdevice : displayed vm.wrapped.ioDevice address (vm.wrapped.memory address) previous =
        vm.ioDevice.inner := hunshown
      simp only [microStepBack, hsame, hlast, notifyDisplay_eq, displayed_flaky, hdevice]
      rfl
    | inputRead previous value =>
      rcases hunread : MarieVmIODevice.unreadInput vm.ioDevice.inner value with ⟨accepted, inner⟩
      have hinner : MarieVmIODevice.unreadInput vm.wrapped.ioDevice value = (accepted, inner) :=
        hunread
      cases accepted with
      | true =>
        have houter : MarieVmIODevice.unreadInput vm.ioDevice value =
            (true, { vm.ioDevice with inner, remaining := vm.ioDevice.stall }) := by
          simp only [MarieVmIODevice.unreadInput, hunread]
        simp only [microStepBack, hsame, hlast, hinner, houter]
        rfl
      | false =>
        have houter : MarieVmIODevice.unreadInput vm.ioDevice value =
            (false, { vm.ioDevice with inner }) := by
          simp only [MarieVmIODevice.unreadInput, hunread]
        simp only [microStepBack, hsame, hlast, hinner, houter]
        rfl
    | outputWritten value =>
      rcases hunwrite : MarieVmIODevice.unwriteOutput vm.ioDevice.inner value with
        ⟨accepted, inner⟩
      have hinner : MarieVmIODevice.unwriteOutput vm.wrapped.ioDevice value = (accepted, inner) :=
        hunwrite
      have houter : MarieVmIODevice.unwriteOutput vm.ioDevice value =
          (accepted, { vm.ioDevice with inner }) := by
        simp only [MarieVmIODevice.unwriteOutput, hunwrite]
      cases accepted with
      | true =>
        simp only [microStepBack, hsame, hlast, hinner, houter]
        rfl
      | false =>
        simp only [microStepBack, hsame, hlast, hinner, houter]
        rfl

/-- The wrapped machine follows the direct one, past stalled polls, as long as no pixel changes. -/
theorem follows_wrapped : Stuttering.Follows (obey : MarieVMCore (Flaky D) → _ → _) stalls obey
    (fun vm command => ¬vm.Repaints command) wrapped where
  skipped := by
    intro vm command hstalls
    cases command with
    | microStep => exact (microStep_stalls hstalls).2.1
    | microStepBack | setHistoryLimit | clearHistory => cases hstalls
  followed := by
    intro vm command hstalls hpaints
    cases command with
    | microStep => exact (congrArg Prod.snd (microStep_wrapped hstalls hpaints)).symm
    | microStepBack => exact (congrArg Prod.snd (microStepBack_wrapped hpaints)).symm
    | setHistoryLimit | clearHistory => rfl

/-- What every call keeps of a device, an operation keeps. -/
theorem execute_device {P : D → Prop} (hpoll : ∀ d, P d → P (MarieVmIODevice.pollInput d).2)
    (hout : ∀ d value, P d → P (MarieVmIODevice.output d value).2) {vm : MarieVMCore D}
    {op : MicroOp} (hshow : ∀ d address previous current, P d →
      P (displayed d address previous current)) (h : P vm.ioDevice) :
    P (vm.executeMicroOp op).2.ioDevice := by
  cases op <;> simp only [executeMicroOp, executeMicroOp.done, writeRegister, writeMemory_eq]
  case writeMemory => exact hshow _ _ _ _ h
  case readInput =>
    have hdevice := hpoll _ h
    split
    all_goals
      rename_i hanswer
      rw [hanswer] at hdevice
      exact hdevice
  case writeOutput =>
    have hdevice := hout _ vm.registers.output h
    split
    all_goals
      rename_i hanswer
      rw [hanswer] at hdevice
      exact hdevice
  all_goals
    repeat' split
    all_goals exact h

/-- So does a command. -/
theorem obey_device {P : D → Prop} (hpoll : ∀ d, P d → P (MarieVmIODevice.pollInput d).2)
    (hout : ∀ d value, P d → P (MarieVmIODevice.output d value).2)
    (hunread : ∀ d value, P d → P (MarieVmIODevice.unreadInput d value).2)
    (hunwrite : ∀ d value, P d → P (MarieVmIODevice.unwriteOutput d value).2)
    {vm : MarieVMCore D} {command : Command}
    (hshow : ∀ d address previous current, P d → P (displayed d address previous current))
    (h : P vm.ioDevice) : P (vm.obey command).ioDevice := by
  cases command with
  | setHistoryLimit | clearHistory => exact h
  | microStep =>
    have hdevice : vm.beginInstruction.ioDevice = vm.ioDevice := by rw [begin_frame]
    change P vm.microStep.2.ioDevice
    cases hop : vm.currentMicroOp with
    | none =>
      simp only [microStep, begin_currentMicroOp, hop]
      rw [hdevice]
      exact h
    | some op =>
      have hexecute : P (vm.beginInstruction.executeMicroOp op).2.ioDevice := by
        apply execute_device hpoll hout hshow
        rw [hdevice]
        exact h
      rcases he : vm.beginInstruction.executeMicroOp op with ⟨result, core⟩
      rw [he] at hexecute
      cases result with
      | ok effect =>
        rw [microStep_of_execute hop he]
        exact hexecute
      | error stop =>
        rw [microStep_of_error hop he]
        exact hexecute
  | microStepBack =>
    change P vm.microStepBack.2.ioDevice
    cases hlast : vm.history.last with
    | none =>
      simp only [microStepBack, hlast]
      exact h
    | some entry =>
      obtain ⟨control, op, effect⟩ := entry
      simp only [microStepBack, hlast]
      cases effect with
      | none | register => exact h
      | memory address previous =>
        simp only [notifyDisplay_eq]
        exact hshow _ _ _ _ h
      | inputRead previous value =>
        have hdevice := hunread _ value h
        simp only
        split
        all_goals
          rename_i hanswer
          rw [hanswer] at hdevice
          exact hdevice
      | outputWritten value =>
        have hdevice := hunwrite _ value h
        simp only
        split
        all_goals
          rename_i hanswer
          rw [hanswer] at hdevice
          exact hdevice

/-- The wrapped device is never told of a pixel. -/
theorem displays_flaky (vm : MarieVMCore (Flaky (Recording D))) (command : Command) :
    (vm.obey command).ioDevice.inner.displays = vm.ioDevice.inner.displays := by
  apply obey_device (P := fun io : Flaky (Recording D) =>
    io.inner.displays = vm.ioDevice.inner.displays)
  · intro io h
    simp only [MarieVmIODevice.pollInput]
    split
    · exact h
    · exact h
  · intro io value h
    exact h
  · intro io value h
    rcases hunread : MarieVmIODevice.unreadInput io.inner value with ⟨accepted, inner⟩
    have hinner : inner.displays = io.inner.displays := by
      cases hunread
      rfl
    simp only [MarieVmIODevice.unreadInput] at hunread ⊢
    rw [hunread]
    cases accepted with
    | true => exact hinner.trans h
    | false => exact hinner.trans h
  · intro io value h
    exact h
  · intro io address previous current h
    rw [displayed_flaky]
    exact h
  · rfl

theorem displayed_shown {vm : MarieVMCore D} {address : MemoryAddress} {value : Word}
    (h : vm.ShowsPixel address value) (device : D) : ∃ index,
      displayed device address (vm.memory address) value =
        MarieVmIODevice.displayWrite device index ⟨value⟩ := by
  obtain ⟨hne, hpixel⟩ := h
  obtain ⟨index, hindex⟩ := Option.ne_none_iff_exists'.mp hpixel
  refine ⟨index, ?_⟩
  unfold displayed
  rw [if_neg hne, hindex]

theorem displays_displayWrite (io : Recording D) (index : Nat) (pixel : Rgb555) :
    io.displays < (MarieVmIODevice.displayWrite io index pixel).displays := by
  have hcount : (MarieVmIODevice.displayWrite io index pixel).displays = io.displays + 1 :=
    List.countP_cons_of_pos rfl
  omega

theorem displays_displayed (io : Recording D) (address : MemoryAddress)
    (previous current : Word) :
    io.displays ≤ (displayed io address previous current).displays := by
  unfold displayed
  split
  · exact le_rfl
  · split
    · exact Nat.le_of_lt (displays_displayWrite _ _ _)
    · exact le_rfl

/-- Attached directly, it is told of every pixel that changes. -/
theorem displays_direct (vm : MarieVMCore (Recording D)) (command : Command) :
    vm.ioDevice.displays ≤ (vm.obey command).ioDevice.displays ∧
      (vm.Repaints command → vm.ioDevice.displays < (vm.obey command).ioDevice.displays) := by
  constructor
  · apply obey_device (P := fun io : Recording D => vm.ioDevice.displays ≤ io.displays)
    · intro io h
      exact h
    · intro io value h
      exact h
    · intro io value h
      exact h
    · intro io value h
      exact h
    · intro io address previous current h
      exact h.trans (displays_displayed io address previous current)
    · exact le_rfl
  · intro hrepaints
    cases command with
    | setHistoryLimit | clearHistory => exact hrepaints.elim
    | microStep =>
      obtain ⟨hop, hshows⟩ := hrepaints
      obtain ⟨index, hshown⟩ := displayed_shown hshows vm.ioDevice
      rcases he : vm.beginInstruction.executeMicroOp .writeMemory with ⟨result, core⟩
      obtain ⟨hdevice, effect, rfl⟩ : core.ioDevice = displayed vm.ioDevice vm.registers.mar
          (vm.memory vm.registers.mar) vm.registers.mbr ∧ ∃ effect, result = .ok effect := by
        rw [begin_frame] at he
        simp only [executeMicroOp, executeMicroOp.done, writeMemory_eq] at he
        cases he
        exact ⟨rfl, _, rfl⟩
      change _ < vm.microStep.2.ioDevice.displays
      rw [microStep_of_execute hop he]
      change _ < core.ioDevice.displays
      rw [hdevice, hshown]
      exact displays_displayWrite _ _ _
    | microStepBack =>
      obtain ⟨⟨control, op, effect⟩, address, previous, hlast, heffect, hshows⟩ := hrepaints
      obtain ⟨index, hshown⟩ := displayed_shown hshows vm.ioDevice
      cases heffect
      change _ < vm.microStepBack.2.ioDevice.displays
      simp only [microStepBack, hlast, notifyDisplay_eq, hshown]
      exact displays_displayWrite _ _ _

/-- What gets through in a session is what the device receives attached directly, exactly if
no command changes a pixel; and then the machines agree too. -/
theorem session_wrapped (vm : MarieVMCore (Flaky (Recording D))) (commands : List Command) :
    ((vm.obeyAll commands).ioDevice.inner.calls =
        (vm.wrapped.obeyAll (vm.undelayed commands)).ioDevice.calls ↔
      vm.wrapped.Unpainted (vm.undelayed commands)) ∧
    (vm.wrapped.Unpainted (vm.undelayed commands) →
      (vm.obeyAll commands).wrapped = vm.wrapped.obeyAll (vm.undelayed commands)) := by
  have hfollows := follows_wrapped.run vm commands
  refine ⟨⟨fun hcalls => ?_, fun hunpainted => ?_⟩, hfollows⟩
  · apply Stuttering.along_of_count fun vm : MarieVMCore (Recording D) => vm.ioDevice.displays
    · exact fun vm command => (displays_direct vm command).1
    · exact fun vm command hpaints => (displays_direct vm command).2 (not_not.mp hpaints)
    · have hkept := Stuttering.run_keeps (fun vm : MarieVMCore (Flaky (Recording D)) =>
        vm.ioDevice.inner.displays) displays_flaky vm commands
      have hsame : (vm.obeyAll commands).ioDevice.inner.displays =
          (vm.wrapped.obeyAll (vm.undelayed commands)).ioDevice.displays :=
        congrArg (List.countP Received.isDisplay) hcalls
      exact (hsame.symm.trans hkept).le
  · exact congrArg (fun vm : MarieVMCore (Recording D) => vm.ioDevice.calls) (hfollows hunpainted)

theorem Proceeds.obeyAll {checked : Bool} {vm : MarieVMCore D} {n : Nat} {outcome : RunOutcome D}
    (h : Proceeds checked vm n outcome) :
    outcome.machine = vm.obeyAll (List.replicate n .microStep) := by
  induction h with
  | breakpoint => rfl
  | @executed checked vm vm' op n outcome hgo hs hrest ih =>
    rw [ih, List.replicate_succ]
    change _ = vm.microStep.2.obeyAll _
    rw [hs]
  | @awaiting checked vm vm' n outcome hgo hs hrest ih =>
    rw [ih, List.replicate_succ]
    change _ = vm.microStep.2.obeyAll _
    rw [hs]
  | @stops checked vm vm' stop hgo hs hstop hready =>
    change _ = vm.microStep.2
    rw [hs]
    cases stop with
    | executed | halted | awaitingInput | faulted | panicked => rfl

/-- A micro-step that is heard and changes no pixel is made on the wrapped device too. -/
theorem heard_wrapped {vm vm' : MarieVMCore (Flaky D)} {out : MicroOutcome} {n : Nat}
    (hs : vm.microStep = (out, vm')) (hstalls : vm.stalls .microStep = false)
    (hquiet : vm.wrapped.Unpainted (vm.undelayed (List.replicate (n + 1) .microStep))) :
    vm.wrapped.microStep = (out, vm'.wrapped) ∧
      vm'.wrapped.Unpainted (vm'.undelayed (List.replicate n .microStep)) := by
  rw [undelayed, List.replicate_succ, Stuttering.heard, hstalls, if_neg Bool.false_ne_true] at hquiet
  obtain ⟨hpaints, hrest⟩ := hquiet
  have hmicro := microStep_wrapped hstalls hpaints
  have hnext : vm.obey .microStep = vm' := congrArg Prod.snd hs
  have hinner : vm.wrapped.obey .microStep = vm'.wrapped := by
    change vm.wrapped.microStep.2 = _
    rw [hmicro, hs]
  rw [hnext, hinner] at hrest
  rw [hs] at hmicro
  exact ⟨hmicro, hrest⟩

/-- Micro-steps of a run are micro-steps of the run on the wrapped device, but for the stalls. -/
theorem Proceeds.wrapped {checked : Bool} {vm : MarieVMCore (Flaky D)} {n : Nat}
    {outcome : RunOutcome (Flaky D)} (h : Proceeds checked vm n outcome)
    (hquiet : vm.wrapped.Unpainted (vm.undelayed (List.replicate n .microStep))) :
    ∃ m, Proceeds checked vm.wrapped m outcome.wrapped := by
  have hheard : ∀ {vm vm' : MarieVMCore (Flaky D)} {out : MicroOutcome},
      vm.microStep = (out, vm') → out ≠ .awaitingInput → vm.stalls .microStep = false := by
    intro vm vm' out hs hne
    by_contra hstalls
    have hawaiting := (microStep_stalls (Bool.eq_true_of_not_eq_false hstalls)).1
    rw [hs] at hawaiting
    exact hne hawaiting
  induction h with
  | breakpoint h => exact ⟨0, .breakpoint h⟩
  | @executed checked vm vm' op n outcome hgo hs hrest ih =>
    obtain ⟨hinner, hquiet⟩ := heard_wrapped hs (hheard hs (by simp)) hquiet
    obtain ⟨m, hm⟩ := ih hquiet
    exact ⟨m + 1, .executed hgo hinner hm⟩
  | @awaiting checked vm vm' n outcome hgo hs hrest ih =>
    cases hstalls : vm.stalls .microStep with
    | true =>
      have hsame := (microStep_stalls hstalls).2.1
      rw [undelayed, List.replicate_succ, Stuttering.heard, hstalls, if_pos rfl, ← hsame] at hquiet
      change vm.microStep.2.wrapped.Unpainted (vm.microStep.2.undelayed _) at hquiet
      rw [hs] at hquiet hsame
      obtain ⟨m, hm⟩ := ih hquiet
      rw [hsame] at hm
      exact ⟨m, hm.unchecked hgo⟩
    | false =>
      obtain ⟨hinner, hquiet⟩ := heard_wrapped hs hstalls hquiet
      obtain ⟨m, hm⟩ := ih hquiet
      exact ⟨m + 1, .awaiting hgo hinner hm⟩
  | @stops checked vm vm' stop hgo hs hstop hready =>
    obtain ⟨hinner, -⟩ := heard_wrapped hs (hheard hs hready) hquiet
    have hends : Proceeds checked vm.wrapped 1 (.ofStop stop vm'.wrapped) :=
      .stops hgo hinner hstop hready
    refine ⟨1, ?_⟩
    cases stop with
    | executed | halted | awaitingInput | faulted | panicked => exact hends

/-- A stall comes to its end. -/
theorem stalls_end (vm : MarieVMCore (Flaky D)) : ∃ k vm', vm'.wrapped = vm.wrapped ∧
    vm'.stalls .microStep = false ∧ ∀ n outcome, Proceeds false vm' n outcome →
      Proceeds false vm (n + k) outcome := by
  induction hk : vm.ioDevice.remaining using Nat.strong_induction_on generalizing vm with
  | _ k ih =>
    cases hstalls : vm.stalls .microStep with
    | false => exact ⟨0, vm, rfl, hstalls, fun n outcome h => h⟩
    | true =>
      obtain ⟨hawaiting, hsame, hless⟩ := microStep_stalls hstalls
      obtain ⟨j, vm', hwrapped, hheard, hthrough⟩ := ih _ (by omega) vm.microStep.2 rfl
      refine ⟨j + 1, vm', hwrapped.trans hsame, hheard, fun n outcome h => ?_⟩
      have hs : vm.microStep = (.awaitingInput, vm.microStep.2) := Prod.ext hawaiting rfl
      exact .awaiting (fun h => by cases h) hs (hthrough n outcome h)

/-- What a micro-step does on the wrapped device, one does behind the stall when that is over. -/
theorem delayed_microStep {d d' : MarieVMCore D} {out : MicroOutcome} {n : Nat}
    (hs : d.microStep = (out, d'))
    (hquiet : d.Unpainted (List.replicate (n + 1) .microStep))
    (vm : MarieVMCore (Flaky D)) (hvm : vm.wrapped = d) :
    d'.Unpainted (List.replicate n .microStep) ∧ ∃ k vm' after, vm'.wrapped = d ∧
      vm'.microStep = (out, after) ∧ after.wrapped = d' ∧
      ∀ n outcome, Proceeds false vm' n outcome → Proceeds false vm (n + k) outcome := by
  subst hvm
  obtain ⟨hpaints, hrest⟩ := hquiet
  have hnext : vm.wrapped.obey .microStep = d' := congrArg Prod.snd hs
  rw [hnext] at hrest
  obtain ⟨k, vm', hsame, hheard, hthrough⟩ := stalls_end vm
  rw [← hsame] at hpaints hs
  have hmicro := microStep_wrapped hheard hpaints
  rw [hs] at hmicro
  obtain ⟨hout, hafter⟩ := Prod.mk.inj hmicro
  exact ⟨hrest, k, vm', vm'.microStep.2, hsame, Prod.ext hout.symm rfl, hafter.symm, hthrough⟩

/-- What is done on the wrapped device is done behind the stall in the end. -/
theorem Proceeds.delayed {checked : Bool} {d : MarieVMCore D} {n : Nat} {outcome : RunOutcome D}
    (h : Proceeds checked d n outcome) (hquiet : d.Unpainted (List.replicate n .microStep))
    (vm : MarieVMCore (Flaky D)) (hvm : vm.wrapped = d) :
    ∃ m delayed, Proceeds checked vm m delayed ∧ delayed.wrapped = outcome := by
  have hnever : ∀ vm : MarieVMCore (Flaky D), false = true → vm.atBreakpoint = false :=
    fun _ h => by cases h
  induction h generalizing vm with
  | breakpoint h =>
    subst hvm
    exact ⟨0, _, .breakpoint h, rfl⟩
  | @executed checked d d' op n outcome hgo hs hrest ih =>
    obtain ⟨hquiet, k, vm', after, hsame, hmicro, hafter, hthrough⟩ :=
      delayed_microStep hs hquiet vm hvm
    subst hafter
    obtain ⟨m, delayed, hm, hdelayed⟩ := ih hquiet after rfl
    subst hvm
    exact ⟨_, delayed, (hthrough _ _ (.executed (hnever vm') hmicro hm)).unchecked hgo, hdelayed⟩
  | @awaiting checked d d' n outcome hgo hs hrest ih =>
    obtain ⟨hquiet, k, vm', after, hsame, hmicro, hafter, hthrough⟩ :=
      delayed_microStep hs hquiet vm hvm
    subst hafter
    obtain ⟨m, delayed, hm, hdelayed⟩ := ih hquiet after rfl
    subst hvm
    exact ⟨_, delayed, (hthrough _ _ (.awaiting (hnever vm') hmicro hm)).unchecked hgo, hdelayed⟩
  | @stops checked d d' stop hgo hs hstop hready =>
    obtain ⟨-, k, vm', after, hsame, hmicro, hafter, hthrough⟩ :=
      delayed_microStep hs hquiet vm hvm
    subst hafter hvm
    refine ⟨_, _, (hthrough _ _ (.stops (hnever vm') hmicro hstop hready)).unchecked hgo, ?_⟩
    cases stop with
    | executed | halted | awaitingInput | faulted | panicked => rfl

/-- The decorator only delays input, exactly as far as no pixel of the display changes: what gets
through in any session of steps forward and back is then what the device receives attached
directly, a run that is resumed whenever it waits is the run on the device itself, and there is
one for each of those. -/
theorem flaky_delays (vm : MarieVMCore (Flaky (Recording D))) :
    (∀ commands, ((vm.obeyAll commands).ioDevice.inner.calls =
          (vm.wrapped.obeyAll (vm.undelayed commands)).ioDevice.calls ↔
        vm.wrapped.Unpainted (vm.undelayed commands)) ∧
      (vm.wrapped.Unpainted (vm.undelayed commands) →
        (vm.obeyAll commands).wrapped = vm.wrapped.obeyAll (vm.undelayed commands))) ∧
    (∀ outcome, RunThrough 0 vm outcome → ∃ n,
      outcome.machine = vm.obeyAll (List.replicate n .microStep) ∧
      (vm.wrapped.Unpainted (vm.undelayed (List.replicate n .microStep)) →
        RunThrough 0 vm.wrapped outcome.wrapped)) ∧
    ∀ outcome, RunThrough 0 vm.wrapped outcome → ∃ n,
      outcome.machine = vm.wrapped.obeyAll (List.replicate n .microStep) ∧
      (vm.wrapped.Unpainted (List.replicate n .microStep) →
        ∃ delayed, RunThrough 0 vm delayed ∧ delayed.wrapped = outcome) := by
  refine ⟨session_wrapped vm, fun outcome hrun => ?_, fun outcome hrun => ?_⟩
  · obtain ⟨n, hn⟩ := hrun.proceeds
    refine ⟨n, hn.obeyAll, fun hquiet => ?_⟩
    obtain ⟨m, hm⟩ := Proceeds.wrapped hn hquiet
    exact hm.runThrough
  · obtain ⟨n, hn⟩ := hrun.proceeds
    refine ⟨n, hn.obeyAll, fun hquiet => ?_⟩
    obtain ⟨m, delayed, hm, hsame⟩ := Proceeds.delayed hn hquiet vm rfl
    exact ⟨delayed, hm.runThrough, hsame⟩

/-- `LoadImmi 7; Store F05; Halt`: the wrapped device never learns of the pixel. -/
theorem flaky_delays_not_pixels :
    let memory : MemoryImage := fun address =>
      if address = 0 then 0xA007 else if address = 1 then 0x2F05 else 0x7000
    let vm := (MarieVMCore.new (Flaky.new (⟨VecIo.new [], []⟩ : Recording VecIo) 2)).flashProgram
      memory 0
    let session := List.replicate 20 Command.microStep
    (vm.obeyAll session).ioDevice.inner.calls = [] ∧
      (vm.wrapped.obeyAll (vm.undelayed session)).ioDevice.calls = [.displayWrite 5 ⟨7⟩] := by
  decide +kernel

end Device

end MarieVMCore

end MarieRs.Vm
