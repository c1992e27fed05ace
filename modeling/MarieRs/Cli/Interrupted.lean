import MarieRs.Cli.Drivers
import MarieRs.Lib.Interruption

namespace MarieRs.Cli

open Lib Vm

/-! Ctrl-C during `marie run`. The handler sets a flag, and the drivers look at it now and then. -/

/-- Where a driver was when it noticed, with its count of instructions. -/
structure Interrupted (D : Type) where
  vm : MarieVMCore D
  instructions : U64

/-- What the tool says of a run stopped by Ctrl-C. -/
def stopped {D : Type} (interrupted : Interrupted D) : Report where
  message := "interrupted at " ++ interrupted.vm.registers.pc.display ++ " after " ++
    toString interrupted.instructions.toNat ++ " instruction" ++
    if interrupted.instructions = 1 then "" else "s"
  help := some "the machine stopped where it was; nothing was lost"

section Device
variable {D : Type} [MarieVmIODevice D]

def Sliced.executed : Sliced D → U64
  | .between _ executed | .inside _ executed _ _ => executed

end Device

variable {D : Type} [MarieVmIODevice D]

end MarieRs.Cli
