import MarieRs.Core.Word

namespace MarieRs

/-- ASCII case folding, as `to_ascii_lowercase` does it. -/
def toAsciiLowercase (s : Str) : Str := s.map Char.toLower

def eqIgnoreAsciiCase (s t : Str) : Bool := toAsciiLowercase s == toAsciiLowercase t

@[simp] theorem toAsciiLowercase_idem (s : Str) :
    toAsciiLowercase (toAsciiLowercase s) = toAsciiLowercase s := by
  simp [toAsciiLowercase]

inductive Opcode where
  | jnS | load | store | add | subt | input | output | halt
  | skipCond | jump | loadImmi | addI | jumpI | loadI | storeI
  deriving DecidableEq, Repr

namespace Opcode

def all : List Opcode :=
  [.jnS, .load, .store, .add, .subt, .input, .output, .halt,
   .skipCond, .jump, .loadImmi, .addI, .jumpI, .loadI, .storeI]

def fromNibble : Nat → Option Opcode
  | 0x0 => some .jnS
  | 0x1 => some .load
  | 0x2 => some .store
  | 0x3 => some .add
  | 0x4 => some .subt
  | 0x5 => some .input
  | 0x6 => some .output
  | 0x7 => some .halt
  | 0x8 => some .skipCond
  | 0x9 => some .jump
  | 0xA => some .loadImmi
  | 0xB => some .addI
  | 0xC => some .jumpI
  | 0xD => some .loadI
  | 0xE => some .storeI
  | _ => none

def toNibble : Opcode → Nat
  | .jnS => 0x0
  | .load => 0x1
  | .store => 0x2
  | .add => 0x3
  | .subt => 0x4
  | .input => 0x5
  | .output => 0x6
  | .halt => 0x7
  | .skipCond => 0x8
  | .jump => 0x9
  | .loadImmi => 0xA
  | .addI => 0xB
  | .jumpI => 0xC
  | .loadI => 0xD
  | .storeI => 0xE

def mnemonic : Opcode → String
  | .jnS => "JnS"
  | .load => "Load"
  | .store => "Store"
  | .add => "Add"
  | .subt => "Subt"
  | .input => "Input"
  | .output => "Output"
  | .halt => "Halt"
  | .skipCond => "Skipcond"
  | .jump => "Jump"
  | .loadImmi => "LoadImmi"
  | .addI => "AddI"
  | .jumpI => "JumpI"
  | .loadI => "LoadI"
  | .storeI => "StoreI"

def fromMnemonic (mnemonic : Str) : Option Opcode :=
  let lowered := toAsciiLowercase mnemonic
  all.find? (fun opcode => eqIgnoreAsciiCase opcode.mnemonic.toList lowered)

def takesOperand : Opcode → Bool
  | .input | .output | .halt => false
  | _ => true

def description : Opcode → String
  | .jnS => "Store the address of the next instruction at X, then jump to X + 1"
  | .load => "Load the value at address X into the AC (AC <- M[X])"
  | .store => "Store the AC into memory at address X (M[X] <- AC)"
  | .add => "Add the value at address X to the AC (AC <- AC + M[X])"
  | .subt => "Subtract the value at address X from the AC (AC <- AC - M[X])"
  | .input => "Read the next value from user input (AC <- IN)"
  | .output => "Output the value in the AC (OUT <- AC)"
  | .halt => "Stop execution of the program"
  | .skipCond => "Skip the next instruction if the condition indicated by X holds"
  | .jump => "Jump to address X (PC <- X)"
  | .loadImmi => "Set the AC to the 12-bit unsigned immediate X (AC <- X)"
  | .addI => "Add the value at the address held at X to the AC (AC <- AC + M[M[X]])"
  | .jumpI => "Jump to the address held at X (PC <- M[X])"
  | .loadI => "Load the value at the address held at X into the AC (AC <- M[M[X]])"
  | .storeI => "Store the AC at the address held at X (M[M[X]] <- AC)"

@[simp] theorem fromNibble_toNibble (op : Opcode) : fromNibble op.toNibble = some op := by
  cases op <;> rfl

theorem toNibble_lt (op : Opcode) : op.toNibble < 16 := by
  cases op <;> decide

/-- Only the nibble `0xF` is unassigned. -/
theorem fromNibble_eq_none {n : Nat} : fromNibble n = none ↔ 15 ≤ n := by
  constructor
  · intro h
    by_contra hn
    interval_cases n <;> cases h
  · intro h
    unfold fromNibble
    split <;> first | omega | rfl

theorem mem_all (op : Opcode) : op ∈ all := by
  cases op <;> decide

/-- No two opcodes share a spelling, whatever the letter case. -/
theorem mnemonic_injective {op op' : Opcode}
    (h : toAsciiLowercase op.mnemonic.toList = toAsciiLowercase op'.mnemonic.toList) :
    op = op' := by
  revert h
  cases op <;> cases op' <;> decide

theorem fromMnemonic_eq_some {m : Str} {op : Opcode} :
    fromMnemonic m = some op ↔ toAsciiLowercase m = toAsciiLowercase op.mnemonic.toList := by
  simp only [fromMnemonic, eqIgnoreAsciiCase, toAsciiLowercase_idem]
  constructor
  · intro h
    have := List.find?_some h
    exact (eq_of_beq this).symm
  · intro h
    cases hf : all.find? _ with
    | none =>
      have := List.find?_eq_none.mp hf op (mem_all op)
      simp [h] at this
    | some op' =>
      have := List.find?_some hf
      simp only [beq_iff_eq] at this
      rw [mnemonic_injective (this.trans h)]

@[simp] theorem fromMnemonic_lowercase (m : Str) :
    fromMnemonic (toAsciiLowercase m) = fromMnemonic m := by
  simp [fromMnemonic]

end Opcode

inductive SkipCondition where
  | negative | zero | positive | nonZero
  deriving DecidableEq, Repr

namespace SkipCondition

def fromOperand (operand : MemoryAddress) : SkipCondition :=
  let bits := operand.value &&& 0x0C00
  if bits = 0x0000 then .negative
  else if bits = 0x0400 then .zero
  else if bits = 0x0800 then .positive
  else .nonZero

def toOperand : SkipCondition → MemoryAddress
  | .negative => 0x000
  | .zero => 0x400
  | .positive => 0x800
  | .nonZero => 0xC00

def holds : SkipCondition → Word → Bool
  | .negative, ac => ac.isNegative
  | .zero, ac => ac.isZero
  | .positive, ac => ac.isPositive
  | .nonZero, ac => !ac.isZero

@[simp] theorem fromOperand_toOperand (condition : SkipCondition) :
    fromOperand condition.toOperand = condition := by
  cases condition <;> decide

def display : SkipCondition → String
  | .negative => "AC < 0"
  | .zero => "AC = 0"
  | .positive => "AC > 0"
  | .nonZero => "AC != 0"

end SkipCondition

structure Instruction where
  opcode : Opcode
  operand : MemoryAddress
  deriving DecidableEq, Repr

namespace Instruction

/-- Fails only for the unassigned top nibble. -/
def decode (word : Word) : Option Instruction :=
  match Opcode.fromNibble (word >>> 12).toNat with
  | some opcode => some { opcode, operand := MemoryAddress.newMasked word }
  | none => none

def encode (i : Instruction) : Word :=
  (BitVec.ofNat 16 i.opcode.toNibble <<< 12) ||| i.operand.value

def skipCondition (i : Instruction) : Option SkipCondition :=
  match i.opcode with
  | .skipCond => some (SkipCondition.fromOperand i.operand)
  | _ => none

def display (i : Instruction) : String :=
  if i.opcode.takesOperand then i.opcode.mnemonic ++ " " ++ i.operand.display
  else i.opcode.mnemonic

theorem decode_eq_some {w : Word} {i : Instruction} :
    decode w = some i ↔ Opcode.fromNibble (w.toNat / 4096) = some i.opcode ∧
      i.operand = MemoryAddress.newMasked w := by
  have hs : (w >>> 12).toNat = w.toNat / 4096 := by
    simp [BitVec.toNat_ushiftRight, Nat.shiftRight_eq_div_pow]
  unfold decode
  rw [hs]
  obtain ⟨op, x⟩ := i
  cases hn : Opcode.fromNibble (w.toNat / 4096) with
  | none => simp
  | some op' =>
    simp only [Option.some.injEq, Instruction.mk.injEq]
    exact ⟨fun h => ⟨h.1, h.2.symm⟩, fun h => ⟨h.1, h.2.symm⟩⟩

/-- A word is no instruction exactly if its top nibble is `0xF`. -/
theorem decode_eq_none {w : Word} : decode w = none ↔ w.toNat / 4096 = 15 := by
  have hlt : w.toNat < 16 * 4096 := w.isLt
  have hs : (w >>> 12).toNat = w.toNat / 4096 := by
    simp [BitVec.toNat_ushiftRight, Nat.shiftRight_eq_div_pow]
  have hnone : decode w = none ↔ Opcode.fromNibble (w.toNat / 4096) = none := by
    unfold decode
    rw [hs]
    cases Opcode.fromNibble (w.toNat / 4096) <;> simp
  rw [hnone, Opcode.fromNibble_eq_none]
  omega

/-- The word is the opcode in the top nibble over the twelve address bits. -/
theorem toNat_encode (i : Instruction) :
    i.encode.toNat = i.opcode.toNibble * 4096 + i.operand.toNat := by
  have hop := i.opcode.toNibble_lt
  have hx := i.operand.isLt
  have hshift : (BitVec.ofNat 16 i.opcode.toNibble <<< 12).toNat = i.opcode.toNibble * 2 ^ 12 := by
    simp only [BitVec.toNat_shiftLeft, BitVec.toNat_ofNat, Nat.shiftLeft_eq]
    omega
  have hval : i.operand.value.toNat = i.operand.toNat := by
    simp [MemoryAddress.value]
    omega
  rw [encode, BitVec.toNat_or, hshift, hval, Nat.mul_comm,
    ← Nat.two_pow_add_eq_or_of_lt hx, Nat.mul_comm]

theorem decode_encode (i : Instruction) : decode i.encode = some i := by
  have hop := i.opcode.toNibble_lt
  have hx := i.operand.isLt
  refine decode_eq_some.mpr ⟨?_, ?_⟩
  · rw [toNat_encode, show (i.opcode.toNibble * 4096 + i.operand.toNat) / 4096 =
      i.opcode.toNibble by omega, Opcode.fromNibble_toNibble]
  · apply BitVec.eq_of_toNat_eq
    rw [MemoryAddress.toNat_newMasked, toNat_encode]
    omega

theorem encode_injective {i j : Instruction} (h : i.encode = j.encode) : i = j := by
  have hdecode := congrArg decode h
  rw [decode_encode, decode_encode, Option.some.injEq] at hdecode
  exact hdecode

@[simp] theorem newMasked_encode (i : Instruction) :
    MemoryAddress.newMasked i.encode = i.operand :=
  (decode_eq_some.mp (decode_encode i)).2.symm

end Instruction

end MarieRs
