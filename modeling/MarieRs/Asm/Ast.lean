import MarieRs.Asm.Span
import MarieRs.Core.Literal

namespace MarieRs.Asm

/-- A label definition, without its comma. -/
structure Label where
  name : Str
  span : Span
  deriving DecidableEq

inductive MnemonicKind where
  | opcode (opcode : Opcode)
  | directive (directive : Directive)
  | unknown
  deriving DecidableEq

structure Mnemonic where
  text : Str
  lowercase : Str
  kind : MnemonicKind
  span : Span
  deriving DecidableEq

structure Operand where
  text : Str
  span : Span
  deriving DecidableEq

/-- An operand that starts with a decimal digit and holds hexadecimal digits only
is an address; anything else names a label. -/
def looksLikeAddressLiteral : Str → Bool
  | [] => false
  | c :: rest => isAsciiDigit c && rest.all isAsciiHexdigit

structure Item where
  label : Option Label
  mnemonic : Mnemonic
  operand : Option Operand
  comment : Option Span
  address : MemoryAddress
  line : Nat
  span : Span
  deriving DecidableEq

structure Origin where
  address : MemoryAddress
  digits : Span
  span : Span
  line : Nat
  deriving DecidableEq

structure End where
  span : Span
  line : Nat
  deriving DecidableEq

structure Program where
  origin : Option Origin := none
  items : List Item := []
  end_ : Option End := none
  /-- The text after `END`, which the assembler never looked at. -/
  trailing : Option Span := none
  deriving DecidableEq

def Program.originAddress (p : Program) : MemoryAddress :=
  match p.origin with
  | some o => o.address
  | none => MemoryAddress.zero

/-- The item whose span contains an offset. -/
def Program.itemAt (p : Program) (offset : Nat) : Option Item :=
  p.items.find? fun item => item.span.touches offset

def Program.itemAtAddress (p : Program) (address : MemoryAddress) : Option Item :=
  p.items.find? fun item => item.address == address

end MarieRs.Asm
