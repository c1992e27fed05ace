import Mathlib

namespace MarieRs

/-- A 16-bit machine word. The source keeps `i16`, `u16` and the `Value`
newtype apart; its casts between them keep the bit pattern. -/
abbrev Word := BitVec 16

/-- Rust's `str`: a sequence of Unicode scalar values. -/
abbrev Str := List Char

abbrev MEMORY_WORD_COUNT : Nat := 4096

def ADDRESS_MASK : Word := 0xFFF

/-- The source's newtype over `u16` never holds more than twelve bits, so the
type here has no other values. -/
abbrev MemoryAddress := BitVec 12

abbrev MemoryImage := MemoryAddress → Word

namespace MemoryAddress

def zero : MemoryAddress := 0

def tryNew (address : Nat) : Option MemoryAddress :=
  if address < MEMORY_WORD_COUNT then some (BitVec.ofNat 12 address) else none

def newMasked (address : Word) : MemoryAddress :=
  (address &&& ADDRESS_MASK).setWidth 12

/-- Zero-extends, as `value()` returns a `u16`. -/
def value (a : MemoryAddress) : Word := BitVec.setWidth 16 a

def wrappingAdd (a : MemoryAddress) (offset : Word) : MemoryAddress :=
  newMasked (value a + offset)

def index (a : MemoryAddress) : Nat := a.toNat

theorem newMasked_eq (w : Word) : newMasked w = w.setWidth 12 := by
  simp only [newMasked, ADDRESS_MASK]
  apply BitVec.eq_of_getLsbD_eq
  intro i hi
  interval_cases i <;> simp

@[simp] theorem toNat_newMasked (w : Word) : (newMasked w).toNat = w.toNat % 4096 := by
  simp [newMasked_eq]

@[simp] theorem newMasked_value (a : MemoryAddress) : newMasked (value a) = a := by
  simp [newMasked_eq, value]

/-- The mask turns 16-bit arithmetic into arithmetic modulo 4096. -/
theorem wrappingAdd_eq (a : MemoryAddress) (w : Word) :
    wrappingAdd a w = a + newMasked w := by
  apply BitVec.eq_of_toNat_eq
  simp [wrappingAdd, newMasked_eq, value, BitVec.toNat_add]

@[simp] theorem wrappingAdd_one (a : MemoryAddress) : wrappingAdd a 1#16 = a + 1#12 := by
  rw [wrappingAdd_eq]
  rfl

theorem tryNew_eq_some {n : Nat} {a : MemoryAddress} :
    tryNew n = some a ↔ n = a.toNat := by
  unfold tryNew
  split
  · rename_i hn
    constructor
    · intro h
      rw [← Option.some.inj h, BitVec.toNat_ofNat]
      exact (Nat.mod_eq_of_lt hn).symm
    · rintro rfl
      simp
  · rename_i hn
    constructor
    · simp
    · intro h
      exact absurd (h ▸ a.isLt) hn

theorem tryNew_eq_none {n : Nat} : tryNew n = none ↔ MEMORY_WORD_COUNT ≤ n := by
  simp [tryNew]

end MemoryAddress

namespace Word

def low12Bits (w : Word) : Word := w &&& 0x0FFF

def isNegative (w : Word) : Bool := decide (w.toInt < 0)

def isZero (w : Word) : Bool := w == 0

def isPositive (w : Word) : Bool := decide (0 < w.toInt)

theorem low12Bits_eq (w : Word) : low12Bits w = MemoryAddress.value (MemoryAddress.newMasked w) := by
  simp only [low12Bits, MemoryAddress.value, MemoryAddress.newMasked_eq]
  apply BitVec.eq_of_getLsbD_eq
  intro i hi
  interval_cases i <;> simp

end Word

/-- Upper-case, as `{:X}` prints it. -/
def hexDigit (n : Nat) : Char :=
  if n < 10 then Char.ofNat ('0'.toNat + n) else Char.ofNat ('A'.toNat + (n - 10))

/-- The low `width` hexadecimal digits of `n`, most significant first. -/
def hexPadded (width n : Nat) : Str :=
  (List.range width).reverse.map (fun i => hexDigit (n / 16 ^ i % 16))

def MemoryAddress.display (a : MemoryAddress) : String :=
  String.ofList (hexPadded 3 a.toNat)

end MarieRs
