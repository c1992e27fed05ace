import MarieRs.Core.Instruction

namespace MarieRs.Vm

def DISPLAY_ORIGIN : MemoryAddress := 0xF00

/-- A pixel is the memory word that holds it. -/
structure Rgb555 where
  bits : Word
  deriving DecidableEq, Repr

/-- Row-major index of the pixel an address maps to. -/
def pixelIndex (address : MemoryAddress) : Option Nat :=
  if address < DISPLAY_ORIGIN then none
  else some (address.toNat - DISPLAY_ORIGIN.toNat)

inductive IoError where
  | eof
  | io (error : String)
  | parse (message : String)
  deriving DecidableEq, Repr

def IoError.display : IoError → String
  | .eof => "end of input"
  | .io error => "I/O error: " ++ error
  | .parse message => "could not parse input: " ++ message

inductive Poll (α : Type) where
  | pending
  | ready (value : α)

/-- What a device implements. Each call may change the device, so each returns
the device it leaves behind. -/
class MarieVmIODevice (D : Type) where
  pollInput : D → Poll (Except IoError Word) × D
  output : D → Word → Except IoError Unit × D
  unreadInput : D → Word → Bool × D := fun device _ => (false, device)
  unwriteOutput : D → Word → Bool × D := fun device _ => (false, device)
  displayWrite : D → Nat → Rgb555 → D := fun device _ _ => device

/-- The scripted device. -/
structure VecIo where
  inputs : List Word
  outputs : List Word
  deriving DecidableEq, Repr

namespace VecIo

def new (inputs : List Word) : VecIo := ⟨inputs, []⟩

def pollInput (io : VecIo) : Poll (Except IoError Word) × VecIo :=
  match io.inputs with
  | [] => (.ready (.error .eof), io)
  | value :: rest => (.ready (.ok value), { io with inputs := rest })

def output (io : VecIo) (value : Word) : Except IoError Unit × VecIo :=
  (.ok (), { io with outputs := io.outputs ++ [value] })

def unreadInput (io : VecIo) (value : Word) : Bool × VecIo :=
  (true, { io with inputs := value :: io.inputs })

/-- Retracts only a tail that really is the value being undone. -/
def unwriteOutput (io : VecIo) (value : Word) : Bool × VecIo :=
  if io.outputs.getLast? = some value then
    (true, { io with outputs := io.outputs.dropLast })
  else (false, io)

instance : MarieVmIODevice VecIo where
  pollInput := pollInput
  output := output
  unreadInput := unreadInput
  unwriteOutput := unwriteOutput

end VecIo

end MarieRs.Vm
