import MarieRs.Vm.Device
import MarieRs.Vm.History

namespace MarieRs.Vm

/-- One bit per addressable word, in 64 words of 64 bits. -/
structure BreakpointSet where
  bits : Fin 64 → BitVec 64

namespace BreakpointSet

def new : BreakpointSet := ⟨fun _ => 0⟩

def position (address : MemoryAddress) : Fin 64 × BitVec 64 :=
  (⟨address.toNat / 64, by omega⟩, 1#64 <<< (address.toNat % 64))

def insert (set : BreakpointSet) (address : MemoryAddress) : Bool × BreakpointSet :=
  let (word, mask) := position address
  (set.bits word &&& mask == 0, ⟨Function.update set.bits word (set.bits word ||| mask)⟩)

def contains (set : BreakpointSet) (address : MemoryAddress) : Bool :=
  let (word, mask) := position address
  set.bits word &&& mask != 0

end BreakpointSet

inductive Fault where
  | invalidOpcode (address : MemoryAddress) (word : Word)
  | io (address : MemoryAddress) (opcode : Opcode) (error : IoError)
  deriving DecidableEq, Repr

def Fault.display : Fault → String
  | .invalidOpcode address word =>
    "invalid opcode 0x" ++ String.ofList (hexPadded 1 (word >>> 12).toNat) ++ " in word 0x" ++
      String.ofList (hexPadded 4 word.toNat) ++ " at address " ++ address.display
  | .io address opcode error =>
    opcode.mnemonic ++ " at address " ++ address.display ++ " failed: " ++ error.display

/-- `panicked` stands for the core's `unreachable!` and `expect`. -/
inductive MicroOutcome where
  | executed (microOp : MicroOp)
  | halted
  | awaitingInput
  | faulted (fault : Fault)
  | panicked
  deriving DecidableEq, Repr

inductive Continuation where
  | continue_
  | halted
  | awaitingInput
  | faulted (fault : Fault)
  | panicked
  deriving DecidableEq, Repr

structure MarieVMCore (D : Type) where
  registers : Registers
  memory : MemoryImage
  ioDevice : D
  breakpoints : BreakpointSet
  history : History
  microPc : Nat
  decoded : Option Instruction
  instructionAddress : MemoryAddress
  comparison : Bool

namespace MarieVMCore

variable {D : Type}

def new (device : D) : MarieVMCore D where
  registers := {}
  memory := fun _ => 0
  ioDevice := device
  breakpoints := .new
  history := {}
  microPc := 0
  decoded := none
  instructionAddress := 0
  comparison := false

/-- Past the fetch phase the decoded instruction selects the program. -/
def currentMicroOp (vm : MarieVMCore D) : Option MicroOp :=
  match FETCH_DECODE[vm.microPc]? with
  | some op => some op
  | none =>
    match vm.decoded with
    | none => none
    | some i => (execute i.opcode)[vm.microPc - FETCH_DECODE.length]?

/-- Before the first decode the cycle is the fetch phase alone. -/
def cycleLength (vm : MarieVMCore D) : Nat :=
  match vm.decoded with
  | some i => Vm.cycleLength i.opcode
  | none => FETCH_DECODE.length

def control (vm : MarieVMCore D) : Control where
  microPc := vm.microPc
  instructionAddress := vm.instructionAddress
  decoded := vm.decoded
  comparison := vm.comparison

def restore (vm : MarieVMCore D) (c : Control) : MarieVMCore D :=
  { vm with
    microPc := c.microPc
    instructionAddress := c.instructionAddress
    decoded := c.decoded
    comparison := c.comparison }

def rewindTo (vm : MarieVMCore D) (entryPoint : MemoryAddress) : MarieVMCore D :=
  { vm with
    registers := { vm.registers with pc := entryPoint }
    microPc := 0
    decoded := none
    instructionAddress := entryPoint
    comparison := false
    history := vm.history.clear }

def writeRegister (vm : MarieVMCore D) (register : Register) (bits : Word) :
    Effect × MarieVMCore D :=
  (.register register (vm.registers.read register),
    { vm with registers := vm.registers.write register bits })

section Device
variable [MarieVmIODevice D]
open MarieVmIODevice

/-- A write that leaves the pixel unchanged is not reported. -/
def notifyDisplay (vm : MarieVMCore D) (address : MemoryAddress) (previous current : Word) :
    MarieVMCore D :=
  if previous = current then vm
  else
    match pixelIndex address with
    | some index => { vm with ioDevice := displayWrite vm.ioDevice index ⟨current⟩ }
    | none => vm

def writeMemory (vm : MarieVMCore D) : Effect × MarieVMCore D :=
  let address := vm.registers.mar
  let previous := vm.memory address
  let value := vm.registers.mbr
  (.memory address previous,
    notifyDisplay { vm with memory := Function.update vm.memory address value }
      address previous value)

/-- Performs one operation. The error is the outcome it stops the cycle with. -/
def executeMicroOp (vm : MarieVMCore D) : MicroOp → Except MicroOutcome Effect × MarieVMCore D
  | .transfer target source => done (vm.writeRegister target (vm.registers.read source))
  | .readMemory => done (vm.writeRegister .mbr (vm.memory vm.registers.mar))
  | .writeMemory => done vm.writeMemory
  | .incrementPc => done (vm.writeRegister .pc (vm.registers.pc.wrappingAdd 1).value)
  | .decode =>
    match Instruction.decode vm.registers.ir with
    | none => (.error (.faulted (.invalidOpcode vm.instructionAddress vm.registers.ir)), vm)
    | some i => (.ok .none, { vm with decoded := some i })
  | .add => done (vm.writeRegister .ac (vm.registers.ac + vm.registers.mbr))
  | .subtract => done (vm.writeRegister .ac (vm.registers.ac - vm.registers.mbr))
  | .loadImmediate => done (vm.writeRegister .ac vm.registers.ir.low12Bits)
  | .compare =>
    match vm.decoded.bind Instruction.skipCondition with
    | none => (.error .panicked, vm)
    | some c => (.ok .none, { vm with comparison := c.holds vm.registers.ac })
  | .skipIfComparison =>
    if vm.comparison then done (vm.writeRegister .pc (vm.registers.pc.wrappingAdd 1).value)
    else (.ok .none, vm)
  | .readInput =>
    match pollInput vm.ioDevice with
    | (.pending, device) => (.error .awaitingInput, { vm with ioDevice := device })
    | (.ready (.error e), device) =>
      (.error (.faulted (.io vm.instructionAddress .input e)), { vm with ioDevice := device })
    | (.ready (.ok value), device) =>
      (.ok (.inputRead (vm.registers.read .in_) value),
        { vm with registers := vm.registers.write .in_ value, ioDevice := device })
  | .writeOutput =>
    match output vm.ioDevice vm.registers.output with
    | (.error e, device) =>
      (.error (.faulted (.io vm.instructionAddress .output e)), { vm with ioDevice := device })
    | (.ok (), device) =>
      (.ok (.outputWritten vm.registers.output), { vm with ioDevice := device })
  | .halt => (.error .halted, vm)
where
  done (p : Effect × MarieVMCore D) : Except MicroOutcome Effect × MarieVMCore D :=
    (.ok p.1, p.2)

/-- The cast back to `u8` is exact: a cycle has at most ten operations. -/
def advanceMicroPc (vm : MarieVMCore D) : MarieVMCore D :=
  let next := vm.microPc + 1
  { vm with microPc := if next ≥ vm.cycleLength then 0 else next }

/-- Journals a completed operation. -/
def record (vm : MarieVMCore D) (entry : Entry) : MarieVMCore D :=
  { vm with history := vm.history.record entry }

/-- A micro-program counter of zero begins a new instruction at `PC`. -/
def beginInstruction (vm : MarieVMCore D) : MarieVMCore D :=
  if vm.microPc = 0 then { vm with instructionAddress := vm.registers.pc } else vm

def microStep (vm : MarieVMCore D) : MicroOutcome × MarieVMCore D :=
  let control := vm.control
  let vm := vm.beginInstruction
  match vm.currentMicroOp with
  | none => (.panicked, vm)
  | some op =>
    match vm.executeMicroOp op with
    | (.ok effect, vm) =>
      (.executed op, advanceMicroPc (vm.record ⟨control, op, effect⟩))
    | (.error stop, vm) => (stop, vm.restore control)

/-- Reverses the latest journalled operation. The device is asked before the
machine is touched. -/
def microStepBack (vm : MarieVMCore D) : Except StepBackError MicroOp × MarieVMCore D :=
  match vm.history.last with
  | none => (.error .noHistory, vm)
  | some entry =>
    let undone (vm : MarieVMCore D) : Except StepBackError MicroOp × MarieVMCore D :=
      (.ok entry.microOp, { vm.restore entry.control with history := vm.history.pop })
    match entry.effect with
    | .none => undone vm
    | .register register previous =>
      undone { vm with registers := vm.registers.write register previous }
    | .memory address previous =>
      let current := vm.memory address
      undone (notifyDisplay { vm with memory := Function.update vm.memory address previous }
        address current previous)
    | .inputRead previous value =>
      match unreadInput vm.ioDevice value with
      | (false, device) => (.error .irreversibleInput, { vm with ioDevice := device })
      | (true, device) =>
        undone { vm with ioDevice := device, registers := vm.registers.write .in_ previous }
    | .outputWritten value =>
      match unwriteOutput vm.ioDevice value with
      | (false, device) => (.error .irreversibleOutput, { vm with ioDevice := device })
      | (true, device) => undone { vm with ioDevice := device }

end Device

end MarieVMCore

structure ProgramTooLarge where
  origin : MemoryAddress
  length : Nat
  deriving DecidableEq, Repr

/-- Copies `words` to `origin` onwards and leaves the rest of memory alone. -/
def MemoryImage.load (memory : MemoryImage) (origin : MemoryAddress) (words : List Word) :
    Except ProgramTooLarge MemoryImage :=
  let start := origin.index
  if start + words.length ≤ MEMORY_WORD_COUNT then
    .ok (fun a =>
      if start ≤ a.index then (words[a.index - start]?).getD (memory a) else memory a)
  else .error ⟨origin, words.length⟩

def MarieVMCore.loadProgram {D : Type} (vm : MarieVMCore D) (origin : MemoryAddress)
    (program : List Word) : Except ProgramTooLarge (MarieVMCore D) :=
  match MemoryImage.load vm.memory origin program with
  | .error e => .error e
  | .ok memory => .ok ({ vm with memory }.rewindTo origin)

end MarieRs.Vm
