import MarieRs.Vm.Step

namespace MarieRs.Vm.Isa

/-- The architectural state: what the instruction set documents, without the
internal registers and the control unit. -/
structure State (D : Type) where
  ac : Word
  pc : MemoryAddress
  memory : MemoryImage
  device : D

/-- The address field of a word. -/
def addressOf (w : Word) : MemoryAddress := w.setWidth 12

/-- Bits 11-10 of a `Skipcond` operand select how the signed accumulator is
compared with zero. -/
def skips (x : MemoryAddress) (ac : Word) : Bool :=
  match x.toNat / 1024 with
  | 0 => decide (ac.toInt < 0)
  | 1 => decide (ac.toInt = 0)
  | 2 => decide (0 < ac.toInt)
  | _ => decide (ac.toInt ≠ 0)

theorem addressOf_eq (w : Word) : addressOf w = MemoryAddress.newMasked w :=
  (MemoryAddress.newMasked_eq w).symm

section Device
variable {D : Type} [MarieVmIODevice D]
open MarieVmIODevice

/-- `M[a] := w`; a display device hears about a pixel that changed. -/
def State.store (s : State D) (a : MemoryAddress) (w : Word) : State D :=
  { s with
    memory := Function.update s.memory a w
    device := MarieVMCore.displayed s.device a (s.memory a) w }

/-- The documented effect of one instruction. -/
def exec (i : Instruction) (s : State D) : State D :=
  let x := i.operand
  let next := s.pc + 1
  match i.opcode with
  | .jnS => { s.store x next.value with pc := x + 1 }
  | .load => { s with ac := s.memory x, pc := next }
  | .store => { s.store x s.ac with pc := next }
  | .add => { s with ac := s.ac + s.memory x, pc := next }
  | .subt => { s with ac := s.ac - s.memory x, pc := next }
  | .input =>
    match pollInput s.device with
    | (.ready (.ok value), device) => { s with ac := value, pc := next, device }
    | (_, device) => { s with pc := next, device }
  | .output => { s with pc := next, device := (output s.device s.ac).2 }
  | .halt => { s with pc := next }
  | .skipCond => { s with pc := if skips x s.ac then s.pc + 2 else next }
  | .jump => { s with pc := x }
  | .loadImmi => { s with ac := x.value, pc := next }
  | .addI => { s with ac := s.ac + s.memory (addressOf (s.memory x)), pc := next }
  | .jumpI => { s with pc := addressOf (s.memory x) }
  | .loadI => { s with ac := s.memory (addressOf (s.memory x)), pc := next }
  | .storeI => { s.store (addressOf (s.memory x)) s.ac with pc := next }

/-- Where control goes after an instruction. -/
def nextPc (i : Instruction) (s : State D) : MemoryAddress :=
  match i.opcode with
  | .jnS => i.operand + 1
  | .jump => i.operand
  | .jumpI => addressOf (s.memory i.operand)
  | .skipCond => if skips i.operand s.ac then s.pc + 2 else s.pc + 1
  | _ => s.pc + 1

/-- The word that an instruction stores to, if it stores. -/
def stored (i : Instruction) (s : State D) : Option MemoryAddress :=
  match i.opcode with
  | .jnS | .store => some i.operand
  | .storeI => some (addressOf (s.memory i.operand))
  | _ => none

theorem exec_pc (i : Instruction) (s : State D) : (exec i s).pc = nextPc i s := by
  obtain ⟨op, x⟩ := i
  cases op with
  | input => simp only [exec, nextPc]; split <;> rfl
  | _ => rfl

theorem exec_memory {i : Instruction} {s : State D} {a : MemoryAddress}
    (h : stored i s ≠ some a) : (exec i s).memory a = s.memory a := by
  obtain ⟨op, x⟩ := i
  cases op with
  | jnS | store | storeI =>
    exact Function.update_of_ne (fun ha => h (congrArg some ha.symm)) _ _
  | input => simp only [exec]; split <;> rfl
  | _ => rfl

/-- A device that does its part of an instruction: it delivers a value to an
`Input` and accepts the accumulator of an `Output`. -/
structure Answers (op : Opcode) (device : D) (ac : Word) : Prop where
  delivers : op = .input → ∃ value d, pollInput device = (.ready (.ok value), d)
  accepts : op = .output → ∃ d, output device ac = (.ok (), d)

end Device

/-- The mask `0xC00` keeps the two selecting bits in place. -/
theorem selector_bits (x : MemoryAddress) :
    x.value &&& 0x0C00 = BitVec.ofNat 16 (x.toNat / 1024 * 1024) := by
  have hand : x.toNat &&& 0x0C00 = x.toNat / 1024 * 1024 := by
    apply Nat.eq_of_testBit_eq
    intro i
    rw [Nat.testBit_and, show (0x0C00 : Nat) = 3 * 2 ^ 10 by rfl,
      show x.toNat / 1024 * 1024 = x.toNat / 2 ^ 10 * 2 ^ 10 by rfl,
      Nat.testBit_mul_two_pow, Nat.testBit_mul_two_pow, Nat.testBit_div_two_pow]
    by_cases hi : 10 ≤ i
    · by_cases hj : i < 12
      · have h3 : Nat.testBit 3 (i - 10) = true := by
          interval_cases i <;> decide
        rw [h3, show i - 10 + 10 = i by omega]
        simp [hi]
      · have hlarge : x.toNat.testBit i = false :=
          Nat.testBit_lt_two_pow (Nat.lt_of_lt_of_le x.isLt
            (Nat.pow_le_pow_right (by decide) (by omega)))
        rw [show i - 10 + 10 = i by omega]
        simp [hlarge]
    · simp [hi]
  apply BitVec.eq_of_toNat_eq
  simp only [BitVec.toNat_and, MemoryAddress.value, BitVec.toNat_setWidth, BitVec.toNat_ofNat]
  rw [Nat.mod_eq_of_lt (by omega : x.toNat < 2 ^ 16),
    Nat.mod_eq_of_lt (by omega : x.toNat / 1024 * 1024 < 2 ^ 16)]
  exact hand

theorem holds_fromOperand (x : MemoryAddress) (ac : Word) :
    (SkipCondition.fromOperand x).holds ac = skips x ac := by
  have hzero : (ac == 0#16) = decide (ac.toInt = 0) := by
    rw [Bool.eq_iff_iff]
    simp [← BitVec.toInt_inj]
  have hq : x.toNat / 1024 = 0 ∨ x.toNat / 1024 = 1 ∨ x.toNat / 1024 = 2 ∨
      x.toNat / 1024 = 3 := by omega
  simp only [SkipCondition.fromOperand, selector_bits, skips]
  rcases hq with h | h | h | h <;>
    simp [h, SkipCondition.holds, Word.isNegative, Word.isZero, Word.isPositive, hzero]

end MarieRs.Vm.Isa
