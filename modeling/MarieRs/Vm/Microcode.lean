import MarieRs.Core.Instruction

namespace MarieRs.Vm

inductive Register where
  | ac | pc | ir | mar | mbr | in_ | out
  deriving DecidableEq, Repr

structure Registers where
  ac : Word := 0
  pc : MemoryAddress := 0
  ir : Word := 0
  mar : MemoryAddress := 0
  mbr : Word := 0
  input : Word := 0
  output : Word := 0
  deriving DecidableEq, Repr

namespace Registers

/-- The 12-bit registers read zero-extended. -/
def read (r : Registers) : Register → Word
  | .ac => r.ac
  | .pc => r.pc.value
  | .ir => r.ir
  | .mar => r.mar.value
  | .mbr => r.mbr
  | .in_ => r.input
  | .out => r.output

/-- Writes to `PC` and `MAR` keep the low twelve bits. -/
def write (r : Registers) : Register → Word → Registers
  | .ac, bits => { r with ac := bits }
  | .pc, bits => { r with pc := MemoryAddress.newMasked bits }
  | .ir, bits => { r with ir := bits }
  | .mar, bits => { r with mar := MemoryAddress.newMasked bits }
  | .mbr, bits => { r with mbr := bits }
  | .in_, bits => { r with input := bits }
  | .out, bits => { r with output := bits }

/-- Writing back the value read before a write undoes it, also for the masked
registers: what was read from them fits the mask. -/
@[simp] theorem write_write_read (r : Registers) (target : Register) (bits : Word) :
    (r.write target bits).write target (r.read target) = r := by
  cases target <;> simp [write, read]

end Registers

inductive MicroOp where
  | transfer (target source : Register)
  | readMemory
  | writeMemory
  | incrementPc
  | decode
  | add
  | subtract
  | loadImmediate
  | compare
  | skipIfComparison
  | readInput
  | writeOutput
  | halt
  deriving DecidableEq, Repr

/-- A store counts, as the display is in memory. -/
def MicroOp.usesDevice : MicroOp → Bool
  | .readInput | .writeOutput | .writeMemory => true
  | _ => false

open Register MicroOp

def FETCH_DECODE : List MicroOp :=
  [transfer mar pc, readMemory, transfer ir mbr, incrementPc, decode]

def JNS : List MicroOp :=
  [transfer mar ir, transfer mbr pc, writeMemory, transfer pc mar, incrementPc]

def LOAD : List MicroOp := [transfer mar ir, readMemory, transfer ac mbr]

def STORE : List MicroOp := [transfer mar ir, transfer mbr ac, writeMemory]

def ADD : List MicroOp := [transfer mar ir, readMemory, MicroOp.add]

def SUBT : List MicroOp := [transfer mar ir, readMemory, subtract]

def INPUT : List MicroOp := [readInput, transfer ac in_]

def OUTPUT : List MicroOp := [transfer out ac, writeOutput]

def HALT : List MicroOp := [MicroOp.halt]

def SKIPCOND : List MicroOp := [MicroOp.compare, skipIfComparison]

def JUMP : List MicroOp := [transfer pc ir]

def LOAD_IMMI : List MicroOp := [loadImmediate]

def ADD_I : List MicroOp :=
  [transfer mar ir, readMemory, transfer mar mbr, readMemory, MicroOp.add]

def JUMP_I : List MicroOp := [transfer mar ir, readMemory, transfer pc mbr]

def LOAD_I : List MicroOp :=
  [transfer mar ir, readMemory, transfer mar mbr, readMemory, transfer ac mbr]

def STORE_I : List MicroOp :=
  [transfer mar ir, readMemory, transfer mar mbr, transfer mbr ac, writeMemory]

/-- The execute phase of an opcode. -/
def execute : Opcode → List MicroOp
  | .jnS => JNS
  | .load => LOAD
  | .store => STORE
  | .add => ADD
  | .subt => SUBT
  | .input => INPUT
  | .output => OUTPUT
  | .halt => HALT
  | .skipCond => SKIPCOND
  | .jump => JUMP
  | .loadImmi => LOAD_IMMI
  | .addI => ADD_I
  | .jumpI => JUMP_I
  | .loadI => LOAD_I
  | .storeI => STORE_I

def cycleLength (op : Opcode) : Nat := FETCH_DECODE.length + (execute op).length

/-- The longest cycle has ten operations, so a micro-program counter fits the
source's `u8` with room to spare. -/
theorem cycleLength_le (op : Opcode) : cycleLength op ≤ 10 := by
  cases op <;> decide

theorem fetch_lt_cycleLength (op : Opcode) : FETCH_DECODE.length < cycleLength op := by
  cases op <;> decide

/-- Decoding belongs to the fetch phase only. -/
theorem decode_not_mem_execute (op : Opcode) : MicroOp.decode ∉ execute op := by
  cases op <;> decide

/-- Only `Skipcond` compares, so its condition is always there to compare. -/
theorem compare_mem_execute {op : Opcode} (h : MicroOp.compare ∈ execute op) :
    op = .skipCond := by
  revert h
  cases op <;> decide

/-- Only `Input` and `Output` use the device. -/
theorem readInput_mem_execute {op : Opcode} (h : MicroOp.readInput ∈ execute op) :
    op = .input := by
  revert h
  cases op <;> decide

theorem writeOutput_mem_execute {op : Opcode} (h : MicroOp.writeOutput ∈ execute op) :
    op = .output := by
  revert h
  cases op <;> decide

end MarieRs.Vm
