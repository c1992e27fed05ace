import MarieRs.Vm.Api

namespace MarieRs.Vm

/-- A notification, with what the pixel was when it came. -/
structure Painted where
  index : Nat
  previous : Word
  current : Word
  deriving DecidableEq, Repr

/-- Any device, with a frame that each notification overwrites a pixel of. -/
structure Painter (D : Type) where
  device : D
  frame : Nat → Word
  painted : List Painted

def Painter.displayWrite {D : Type} [MarieVmIODevice D] (io : Painter D) (index : Nat)
    (pixel : Rgb555) : Painter D where
  device := MarieVmIODevice.displayWrite io.device index pixel
  frame := Function.update io.frame index pixel.bits
  painted := ⟨index, io.frame index, pixel.bits⟩ :: io.painted

instance {D : Type} [MarieVmIODevice D] : MarieVmIODevice (Painter D) where
  pollInput io :=
    let (answer, device) := MarieVmIODevice.pollInput io.device
    (answer, { io with device })
  output io value :=
    let (answer, device) := MarieVmIODevice.output io.device value
    (answer, { io with device })
  unreadInput io value :=
    let (accepted, device) := MarieVmIODevice.unreadInput io.device value
    (accepted, { io with device })
  unwriteOutput io value :=
    let (accepted, device) := MarieVmIODevice.unwriteOutput io.device value
    (accepted, { io with device })
  displayWrite := Painter.displayWrite

def DISPLAY_PIXEL_COUNT : Nat := 256

def pixelAddress (index : Nat) : MemoryAddress := DISPLAY_ORIGIN + BitVec.ofNat 12 index

/-- The frame is what the display region of memory holds. -/
def Mirrors (frame : Nat → Word) (memory : MemoryImage) : Prop :=
  ∀ index < DISPLAY_PIXEL_COUNT, frame index = memory (pixelAddress index)

/-- A notification for a pixel of the frame, which changed. -/
def Painted.Changes (p : Painted) : Prop := p.index < DISPLAY_PIXEL_COUNT ∧ p.previous ≠ p.current

/-- The frame mirrors the memory, and every notification after `earlier` was for a change. -/
structure InStep {D : Type} (earlier : List Painted) (io : Painter D) (memory : MemoryImage) :
    Prop where
  mirrors : Mirrors io.frame memory
  changes : ∃ later, io.painted = later ++ earlier ∧ ∀ p ∈ later, p.Changes

variable {D : Type}

theorem DISPLAY_ORIGIN_toNat : DISPLAY_ORIGIN.toNat = 0xF00 := rfl

theorem pixelIndex_pixelAddress {index : Nat} (h : index < DISPLAY_PIXEL_COUNT) :
    pixelIndex (pixelAddress index) = some index := by
  rw [DISPLAY_PIXEL_COUNT] at h
  have hnat : (pixelAddress index).toNat = 0xF00 + index := by
    simp only [pixelAddress, BitVec.toNat_add, BitVec.toNat_ofNat, DISPLAY_ORIGIN_toNat]
    omega
  rw [pixelIndex, if_neg, hnat, DISPLAY_ORIGIN_toNat, Nat.add_sub_cancel_left]
  rw [BitVec.lt_def, hnat, DISPLAY_ORIGIN_toNat]
  omega

theorem pixelIndex_some {address : MemoryAddress} {index : Nat}
    (h : pixelIndex address = some index) :
    index < DISPLAY_PIXEL_COUNT ∧ address = pixelAddress index := by
  have hlt := address.isLt
  rw [pixelIndex] at h
  split at h
  · cases h
  · rename_i hnot
    rw [BitVec.lt_def, DISPLAY_ORIGIN_toNat] at hnot
    rw [DISPLAY_ORIGIN_toNat, Option.some.injEq] at h
    subst h
    refine ⟨by simp only [DISPLAY_PIXEL_COUNT]; omega, ?_⟩
    apply BitVec.eq_of_toNat_eq
    simp only [pixelAddress, BitVec.toNat_add, BitVec.toNat_ofNat, DISPLAY_ORIGIN_toNat]
    omega

variable [MarieVmIODevice D]

/-- Drawing what was stored keeps the frame in step, also where there is nothing to draw. -/
theorem InStep.stored {earlier : List Painted} {io : Painter D} {memory : MemoryImage}
    (h : InStep earlier io memory) (address : MemoryAddress) (value : Word) :
    InStep earlier (MarieVMCore.displayed io address (memory address) value)
      (Function.update memory address value) := by
  obtain ⟨hmirrors, later, hpainted, hlater⟩ := h
  unfold MarieVMCore.displayed
  split
  · rename_i hsame
    rw [← hsame, Function.update_eq_self]
    exact ⟨hmirrors, later, hpainted, hlater⟩
  · rename_i hchanged
    split
    · rename_i index hindex
      obtain ⟨hin, rfl⟩ := pixelIndex_some hindex
      refine ⟨fun other hother => ?_, ⟨index, io.frame index, value⟩ :: later, ?_, ?_⟩
      · change Function.update io.frame index value other =
          Function.update memory (pixelAddress index) value (pixelAddress other)
        by_cases heq : other = index
        · rw [heq, Function.update_self, Function.update_self]
        · have hne : pixelAddress other ≠ pixelAddress index := by
            intro haddress
            have hsome := pixelIndex_pixelAddress hother
            rw [haddress, hindex] at hsome
            exact heq (Option.some.inj hsome).symm
          rw [Function.update_of_ne heq, Function.update_of_ne hne]
          exact hmirrors other hother
      · change _ :: io.painted = _
        rw [hpainted]
        rfl
      · intro p hp
        rcases List.mem_cons.mp hp with rfl | hp
        · refine ⟨hin, ?_⟩
          change io.frame index ≠ value
          rw [hmirrors index hin]
          exact hchanged
        · exact hlater p hp
    · rename_i hnone
      refine ⟨fun other hother => ?_, later, hpainted, hlater⟩
      have hne : pixelAddress other ≠ address := by
        rintro rfl
        rw [pixelIndex_pixelAddress hother] at hnone
        cases hnone
      change io.frame other = Function.update memory address value (pixelAddress other)
      rw [Function.update_of_ne hne]
      exact hmirrors other hother

namespace MarieVMCore

/-- Whatever an operation does, and whether it completes or not, the frame stays in step. -/
theorem execute_inStep {earlier : List Painted} {vm : MarieVMCore (Painter D)}
    (h : InStep earlier vm.ioDevice vm.memory) (op : MicroOp) :
    InStep earlier (vm.executeMicroOp op).2.ioDevice (vm.executeMicroOp op).2.memory := by
  cases op <;> simp only [executeMicroOp, executeMicroOp.done, writeRegister, writeMemory_eq]
  case writeMemory => exact h.stored vm.registers.mar vm.registers.mbr
  case readInput =>
    have hdevice : InStep earlier (MarieVmIODevice.pollInput vm.ioDevice).2 vm.memory :=
      ⟨h.mirrors, h.changes⟩
    split
    all_goals
      rename_i hpoll
      rw [hpoll] at hdevice
      exact hdevice
  case writeOutput =>
    have hdevice : InStep earlier (MarieVmIODevice.output vm.ioDevice vm.registers.output).2
        vm.memory := ⟨h.mirrors, h.changes⟩
    split
    all_goals
      rename_i hout
      rw [hout] at hdevice
      exact hdevice
  all_goals
    repeat' split
    all_goals exact h

theorem microStep_inStep {earlier : List Painted} {vm : MarieVMCore (Painter D)}
    (h : InStep earlier vm.ioDevice vm.memory) :
    InStep earlier vm.microStep.2.ioDevice vm.microStep.2.memory := by
  have hbegin : InStep earlier vm.beginInstruction.ioDevice vm.beginInstruction.memory := by
    rw [begin_frame]
    exact h
  cases hop : vm.currentMicroOp with
  | none =>
    simp only [microStep, begin_currentMicroOp, hop]
    exact hbegin
  | some op =>
    have hexecute := execute_inStep hbegin op
    rcases he : vm.beginInstruction.executeMicroOp op with ⟨outcome, core⟩
    rw [he] at hexecute
    cases outcome with
    | ok effect =>
      rw [microStep_of_execute hop he]
      exact hexecute
    | error stop =>
      rw [microStep_of_error hop he]
      exact hexecute

theorem microStepBack_inStep {earlier : List Painted} {vm : MarieVMCore (Painter D)}
    (h : InStep earlier vm.ioDevice vm.memory) :
    InStep earlier vm.microStepBack.2.ioDevice vm.microStepBack.2.memory := by
  cases hlast : vm.history.last with
  | none =>
    simp only [microStepBack, hlast]
    exact h
  | some entry =>
    obtain ⟨control, op, effect⟩ := entry
    simp only [microStepBack, hlast]
    cases effect with
    | none | register register previous => exact h
    | memory address previous =>
      simp only [notifyDisplay_eq]
      exact h.stored address previous
    | inputRead previous value =>
      have hdevice : InStep earlier (MarieVmIODevice.unreadInput vm.ioDevice value).2 vm.memory :=
        ⟨h.mirrors, h.changes⟩
      simp only
      split
      all_goals
        rename_i hunread
        rw [hunread] at hdevice
        exact hdevice
    | outputWritten value =>
      have hdevice : InStep earlier (MarieVmIODevice.unwriteOutput vm.ioDevice value).2
          vm.memory := ⟨h.mirrors, h.changes⟩
      simp only
      split
      all_goals
        rename_i hunwrite
        rw [hunwrite] at hdevice
        exact hdevice

/-- A frame that mirrors the display region goes on mirroring it, through any calls that
execute forward or back, and every notification on the way is of a pixel that changed. -/
theorem frame_mirrors {vm vm' : MarieVMCore (Painter D)}
    (hmirrors : Mirrors vm.ioDevice.frame vm.memory)
    (hcalls : Relation.ReflTransGen Executes vm vm') :
    Mirrors vm'.ioDevice.frame vm'.memory ∧
      ∃ later, vm'.ioDevice.painted = later ++ vm.ioDevice.painted ∧ ∀ p ∈ later, p.Changes := by
  have hstart : InStep vm.ioDevice.painted vm.ioDevice vm.memory :=
    ⟨hmirrors, [], rfl, by simp⟩
  have hend : InStep vm.ioDevice.painted vm'.ioDevice vm'.memory := by
    induction hcalls with
    | refl => exact hstart
    | tail _ hcall ih =>
      exact hcall.keeps
        (P := fun m => InStep vm.ioDevice.painted m.ioDevice m.memory)
        (fun _ h => microStep_inStep h) (fun _ h => microStepBack_inStep h) ih
  exact ⟨hend.mirrors, hend.changes⟩

/-- `Store F05`, executed and taken back. -/
theorem frame_mirrors_store :
    let vm : MarieVMCore (Painter VecIo) :=
      { MarieVMCore.new ⟨VecIo.new [], fun _ => 0, []⟩ with
        registers := { ac := 7 }, memory := Function.update (fun _ => 0) 0 0x2F05
        history := ⟨[], 16⟩ }
    vm.step.2.ioDevice.painted = [⟨5, 0, 7⟩] ∧
      Mirrors vm.step.2.stepBack.2.ioDevice.frame vm.step.2.stepBack.2.memory := by
  intro vm
  have hmirrors : Mirrors vm.ioDevice.frame vm.memory := by
    unfold Mirrors
    decide +kernel
  refine ⟨?_, (frame_mirrors hmirrors (.tail (.single (.step _)) (.stepBack _))).1⟩
  rw [step_eq_stepWithin (by decide : 0 < 10) (by omega)]
  decide +kernel

end MarieVMCore

end MarieRs.Vm
