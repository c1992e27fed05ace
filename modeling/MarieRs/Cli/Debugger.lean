import MarieRs.Cli.Dumps
import MarieRs.Cli.Input
import MarieRs.Cli.Replay
import MarieRs.Lsp.Completion
import MarieRs.Vm.Breakpoints

namespace MarieRs.Vm

def StepBackError.display : StepBackError → String
  | .noHistory => "no recorded operation to undo"
  | .irreversibleInput => "the input device cannot un-read a consumed value"
  | .irreversibleOutput => "the output device cannot retract a written value"

end MarieRs.Vm

namespace MarieRs.Cli

open Asm Vm
open Lsp (parseHex splitWhitespace)

/-- `trim_start_matches` with a `0` and a letter, as often as it is there. -/
def trimStartMatches (letter : Char) : Str → Str
  | '0' :: c :: rest => if c = letter then trimStartMatches letter rest else '0' :: c :: rest
  | written => written

/-- Parses a hexadecimal address written on the command line. -/
def parseAddress (written : Str) : Except String MemoryAddress :=
  match parseHex (trimStartMatches 'X' (trimStartMatches 'x' written)) with
  | none => .error ("'" ++ String.ofList written ++ "' is not a hexadecimal address")
  | some value =>
    match MemoryAddress.tryNew value with
    | none =>
      .error ("address " ++ String.ofList written ++ " is outside the 12-bit address space")
    | some address => .ok address

/-- The machine, which changes type as it runs. -/
inductive Machine where
  | stepping (vm : MarieVMCore ReplayIo)
  | terminated (vm : MarieVMCore ReplayIo)

namespace Machine

def vm : Machine → MarieVMCore ReplayIo
  | .stepping vm | .terminated vm => vm

/-- Changes what is in the machine and leaves its type. -/
def map (f : MarieVMCore ReplayIo → MarieVMCore ReplayIo) : Machine → Machine
  | .stepping vm => .stepping (f vm)
  | .terminated vm => .terminated (f vm)

@[simp] theorem vm_map (f : MarieVMCore ReplayIo → MarieVMCore ReplayIo) (machine : Machine) :
    (machine.map f).vm = f machine.vm := by
  cases machine <;> rfl

end Machine

/-- What the debugger knows about the program beyond its words. -/
structure Context where
  assembly : Option Assembly
  source : Option Str
  followDisplay : Bool

/-- The line that a word came from, or what the word is. -/
inductive Listed where
  | source (number : Nat) (text : Str)
  | word (described : String)
  deriving DecidableEq

inductive Printed where
  | line (text : String)
  | help
  | registers (registers : Registers)
  | executed (operation : MicroOp)
  | undid (operation : MicroOp)
  /-- The rows of the display. -/
  | display (rows : List (List Rgb555))
  /-- Where the machine is, and whether that is between instructions. -/
  | location (boundary : Bool) (pc : MemoryAddress) (listed : Listed)

/-- Whether the session keeps going. -/
inductive Flow where
  | continue_ | quit | panicked
  deriving DecidableEq

/-- What a command prints, and the slot that it leaves; every transition of the machine takes it
out of the slot. -/
structure Turn where
  printed : List Printed
  flow : Flow
  machine : Option Machine

/-- Draws the memory-mapped display. -/
def showDisplay (machine : Option Machine) : List Printed :=
  match machine with
  | some machine =>
    [.display ((List.range 16).map fun row => (List.range 16).map fun column =>
      ⟨machine.vm.memory (DISPLAY_ORIGIN + BitVec.ofNat 12 (16 * row + column))⟩)]
  | none => []

/-- The source line of an address, or else the word there, disassembled. -/
def listing (context : Context) (vm : MarieVMCore ReplayIo) (pc : MemoryAddress) : Listed :=
  let line := context.assembly.bind fun assembly => context.source.bind fun source =>
    (assembly.sourceMap.lineFor pc).map fun line =>
      Listed.source (line + 1) (lineText assembly.lines source line)
  line.getD (.word (describe (vm.memory pc)))

/-- Prints where the machine is. -/
def showLocation (context : Context) (machine : Option Machine) : List Printed :=
  match machine with
  | some machine =>
    let vm := machine.vm
    (if context.followDisplay then showDisplay (some machine) else []) ++
      [.location (vm.microPc == 0) vm.registers.pc (listing context vm vm.registers.pc)]
  | none => []

/-- The machine is put back after it moved. -/
def arrive (context : Context) (printed : List Printed) (machine : Machine) : Turn :=
  ⟨printed ++ showLocation context (some machine), .continue_, some machine⟩

def STOPPED : Printed := .line "the program has stopped; `back` still works"

/-- Executes one instruction. -/
def step (context : Context) : Option Machine → Turn
  | some (.stepping vm) =>
    match vm.step with
    | (.continue_, vm) => arrive context [] (.stepping vm)
    | (.awaitingInput, vm) => arrive context [.line "waiting for input"] (.stepping vm)
    | (.halted, vm) => arrive context [.line "halted"] (.terminated vm)
    | (.faulted fault, vm) => arrive context [.line ("fault: " ++ fault.display)] (.terminated vm)
    | (.panicked, vm) => ⟨[], .panicked, some (.terminated vm)⟩
  | other => ⟨[STOPPED], .continue_, other⟩

/-- Executes one micro-operation. -/
def microStep (context : Context) : Option Machine → Turn
  | some (.stepping vm) =>
    match vm.microStep with
    | (.executed operation, vm) => arrive context [.executed operation] (.stepping vm)
    | (.awaitingInput, vm) => arrive context [.line "waiting for input"] (.stepping vm)
    | (.halted, vm) => arrive context [.line "halted"] (.terminated vm)
    | (.faulted fault, vm) => arrive context [.line ("fault: " ++ fault.display)] (.terminated vm)
    | (.panicked, vm) => ⟨[], .panicked, some (.terminated vm)⟩
  | other => ⟨[STOPPED], .continue_, other⟩

/-- What the debugger says of a step back that failed. -/
def refusal : StepBackError → Printed
  | .noHistory => .line "nothing recorded to undo — raise --history to rewind further"
  | error => .line error.display

/-- A stopped machine can be handed back to the debugger. -/
def handBack : Option Machine → Option Machine
  | some (.terminated vm) => some (.stepping vm)
  | other => other

/-- Reverses execution. -/
def stepBack (context : Context) (micro : Bool) (machine : Option Machine) : Turn :=
  match handBack machine with
  | some (.stepping vm) =>
    if micro then
      match vm.microStepBack with
      | (.ok operation, vm) => arrive context [.undid operation] (.stepping vm)
      | (.error error, vm) => ⟨[refusal error], .continue_, some (.stepping vm)⟩
    else
      match vm.stepBack with
      | (.ok _, vm) => arrive context [] (.stepping vm)
      | (.error error, vm) => ⟨[refusal error], .continue_, some (.stepping vm)⟩
  | other => ⟨[], .continue_, other⟩

def RESUME_SLICE : Nat := 200000

/-- Runs until something stops the machine: Ctrl-C is noticed after so many slices. The slot has
been emptied by the time that the pattern fails. -/
def resume (context : Context) (slices : Nat) : Option Machine → Turn
  | some (.stepping vm) =>
    match vm.resume RESUME_SLICE slices with
    | .suspended vm .stepLimit => arrive context [.line "interrupted"] (.stepping vm)
    | .suspended vm reason => arrive context [.line reason.display] (.stepping vm)
    | .terminated vm => arrive context [.line "halted"] (.terminated vm)
    | .faulted vm fault => arrive context [.line ("fault: " ++ fault.display)] (.terminated vm)
    | .panicked vm => ⟨[], .panicked, some (.terminated vm)⟩
  | _ => ⟨[.line "the program has stopped"], .continue_, none⟩

/-- Sixteen words from an address. -/
def memory (machine : Option Machine) (argument : Option Str) : List Printed :=
  match argument.map parseAddress with
  | some (.error error) => [.line error]
  | start =>
    let start := match start with
      | some (.ok address) => address
      | _ => MemoryAddress.zero
    let read (address : MemoryAddress) : Word :=
      (machine.map fun machine => machine.vm.memory address).getD 0
    (List.range 4).map fun row =>
      let base := start.wrappingAdd (BitVec.ofNat 16 (row * 4))
      .line (base.display ++ "  " ++ " ".intercalate ((List.range 4).map fun column =>
        hexWord (read (base.wrappingAdd (BitVec.ofNat 16 column)))))

/-- Adds or removes a breakpoint. -/
def breakpoint (insert : Bool) (machine : Option Machine) (argument : Option Str) : Turn :=
  match argument with
  | none => ⟨[.line "expected an address"], .continue_, machine⟩
  | some written =>
    match parseAddress written with
    | .error error => ⟨[.line error], .continue_, machine⟩
    | .ok address =>
      match machine with
      | none => ⟨[], .continue_, none⟩
      | some machine =>
        let set (breakpoints : BreakpointSet) : Option Machine :=
          some (machine.map fun vm => { vm with breakpoints })
        if insert then
          ⟨[.line ("breakpoint at " ++ address.display)], .continue_,
            set (machine.vm.breakpoints.insert address).2⟩
        else
          let (removed, breakpoints) := machine.vm.breakpoints.remove address
          ⟨[.line ((if removed then "removed breakpoint at " else "no breakpoint at ") ++
            address.display)], .continue_, set breakpoints⟩

/-- Lists the breakpoints. -/
def breakpoints (machine : Option Machine) : List Printed :=
  match machine with
  | none => []
  | some machine =>
    let set := machine.vm.breakpoints
    if set.isEmpty then [.line "no breakpoints"]
    else set.iter.map fun address => .line address.display

inductive Verb where
  | help | quit | step | stepi | back | backi | continue_ | regs | mem | display | list
  | break_ | delete | breaks
  deriving DecidableEq

def Verb.named (verb : Str) : Option Verb :=
  match String.ofList verb with
  | "help" | "h" | "?" => some .help
  | "quit" | "q" => some .quit
  | "step" | "s" => some .step
  | "stepi" | "si" => some .stepi
  | "back" | "b" => some .back
  | "backi" | "bi" => some .backi
  | "continue" | "c" => some .continue_
  | "regs" | "r" => some .regs
  | "mem" | "m" => some .mem
  | "display" | "d" => some .display
  | "list" | "l" => some .list
  | "break" => some .break_
  | "delete" => some .delete
  | "breaks" => some .breaks
  | _ => none

/-- Performs what a verb asks for. -/
def perform (context : Context) (slices : Nat) (argument : Option Str) (machine : Option Machine) :
    Verb → Turn
  | .help => ⟨[.help], .continue_, machine⟩
  | .quit => ⟨[], .quit, machine⟩
  | .step => step context machine
  | .stepi => microStep context machine
  | .back => stepBack context false machine
  | .backi => stepBack context true machine
  | .continue_ => resume context slices machine
  | .regs =>
    ⟨(machine.map fun machine => Printed.registers machine.vm.registers).toList, .continue_,
      machine⟩
  | .mem => ⟨memory machine argument, .continue_, machine⟩
  | .display => ⟨showDisplay machine, .continue_, machine⟩
  | .list => ⟨showLocation context machine, .continue_, machine⟩
  | .break_ => breakpoint true machine argument
  | .delete => breakpoint false machine argument
  | .breaks => ⟨breakpoints machine, .continue_, machine⟩

/-- Runs one debugger command. -/
def command (context : Context) (slices : Nat) (line : Str) (machine : Option Machine) : Turn :=
  let parts := splitWhitespace line
  let verb := parts.head?.getD []
  match Verb.named verb with
  | some verb => perform context slices parts[1]? machine verb
  | none =>
    ⟨[.line ("unknown command `" ++ String.ofList verb ++ "` — try `help`")], .continue_, machine⟩

/-- A session, with the terminal that its prompt shares with the device of the machine. -/
structure Debugger where
  machine : Option Machine
  stdin : Stdin

namespace Debugger

/-- The flags of `marie debug` that the session goes by. -/
structure Args where
  input : InputMode
  history : Nat
  breakpoints : List Str

/-- Sets the breakpoints that were asked for, one after another. -/
def insertAll (set : BreakpointSet) : List Str → Except String BreakpointSet
  | [] => .ok set
  | written :: rest =>
    match parseAddress written with
    | .error error => .error error
    | .ok address => insertAll (set.insert address).2 rest

/-- How a session starts. -/
def start (program : Program) (args : Args) (stdin : Stdin) :
    Except (ProgramTooLarge ⊕ String) Debugger :=
  match program.install (.new (ReplayIo.new args.input stdin)) with
  | .error error => .error (.inl error)
  | .ok vm =>
    let vm := vm.setHistoryLimit args.history
    match insertAll vm.breakpoints args.breakpoints with
    | .error error => .error (.inr error)
    | .ok breakpoints => .ok ⟨some (.stepping { vm with breakpoints }), stdin⟩

/-- What a prompt comes to. -/
inductive Prompted where
  | left
  | panicked
  | goesOn (printed : List Printed) (debugger : Debugger)

/-- Asks for a line and runs it. What is left of the terminal is for the device, and what the
device leaves of it is for the next prompt. -/
def prompt (context : Context) (slices : Nat) (debugger : Debugger) : Prompted :=
  match debugger.stdin with
  | [] | .error _ :: _ => .left
  | .ok typed :: stdin =>
    let machine := debugger.machine.map
      (Machine.map fun vm => { vm with ioDevice := { vm.ioDevice with stdin } })
    let line := trim typed.text
    if line = [] then .goesOn [] ⟨machine, stdin⟩
    else
      let turn := command context slices line machine
      match turn.flow with
      | .continue_ =>
        .goesOn turn.printed
          ⟨turn.machine, (turn.machine.map fun machine => machine.vm.ioDevice.stdin).getD stdin⟩
      | .quit => .left
      | .panicked => .panicked

end Debugger

end MarieRs.Cli
