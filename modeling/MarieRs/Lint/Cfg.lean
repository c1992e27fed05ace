import MarieRs.Asm.Assembler
import MarieRs.Lib.Worklist

namespace MarieRs.Lint

open Asm (Assembly Item MnemonicKind)
open Lib.Worklist (mark)

/-- What a word holds, by the line that produced it. -/
inductive Kind where
  | code | data
  deriving DecidableEq, Repr

/-- Where control can go from a word. -/
inductive Edge where
  | word (index : Nat)
  | outside (address : MemoryAddress)
  | offEnd
  | unknown
  deriving DecidableEq, Repr

/-- The control-flow graph of an assembled program. -/
structure Cfg where
  kinds : List Kind
  reachable : List Bool
  exact_ : Bool
  origin : MemoryAddress
  deriving DecidableEq

def classify (item : Item) : Kind :=
  match item.mnemonic.kind with
  | .directive .dec | .directive .oct | .directive .hex | .directive .adr => .data
  | _ => .code

/-- The opcode a word executes as, with the `Clear` alias resolved. -/
def effectiveOpcode (item : Item) : Option Opcode :=
  match item.mnemonic.kind with
  | .opcode opcode => some opcode
  | .directive .clear => some .loadImmi
  | _ => none

/-- An item that transfers control, or stores, through memory. -/
def isIndirect (item : Item) : Bool :=
  match item.mnemonic.kind with
  | .opcode .jumpI | .opcode .storeI => true
  | _ => false

def Edge.index? : Edge → Option Nat
  | .word index => some index
  | _ => none

namespace Cfg

/-- `address.index().checked_sub(origin.index())`, if that is inside the program. -/
def indexOf (cfg : Cfg) (address : MemoryAddress) : Option Nat :=
  (if cfg.origin.index ≤ address.index then some (address.index - cfg.origin.index)
    else none).filter (· < cfg.kinds.length)

/-- `offset` words further on. -/
def step (cfg : Cfg) (index offset : Nat) : Edge :=
  if index + offset < cfg.kinds.length then .word (index + offset) else .offEnd

/-- A transfer to an absolute address. -/
def target (cfg : Cfg) : Option MemoryAddress → Edge
  | none => .unknown
  | some address =>
    match cfg.indexOf address with
    | some index => .word index
    | none => .outside address

def edges (cfg : Cfg) (assembly : Assembly) (index : Nat) : List Edge :=
  match assembly.program.items[index]? with
  | none => []
  | some item =>
    if cfg.kinds[index]? = some .data then []
    else
      let operand := (assembly.words[index]?).map MemoryAddress.newMasked
      match effectiveOpcode item with
      | none => []
      | some .halt => []
      | some .jump => [cfg.target operand]
      | some .jnS => [cfg.target (operand.map (·.wrappingAdd 1))]
      | some .jumpI => [.unknown]
      | some .skipCond => [cfg.step index 1, cfg.step index 2]
      | some _ => [cfg.step index 1]

/-- The words that control goes on to. Data is not followed. -/
def next (cfg : Cfg) (assembly : Assembly) (index : Nat) : List Nat :=
  if cfg.kinds[index]? = some .data then []
  else (cfg.edges assembly index).filterMap Edge.index?

/-- Marks what the entry point, the first word, can reach. -/
def markReachable (cfg : Cfg) (assembly : Assembly) : Cfg :=
  { cfg with
    reachable := mark (cfg.next assembly) cfg.reachable
      (if cfg.reachable.isEmpty then [] else [0]) }

def new (assembly : Assembly) : Cfg :=
  let items := assembly.program.items
  markReachable
    { kinds := items.map classify
      reachable := List.replicate items.length false
      exact_ := !items.any isIndirect
      origin := assembly.origin } assembly

def kind (cfg : Cfg) (index : Nat) : Option Kind := cfg.kinds[index]?

def isReachable (cfg : Cfg) (index : Nat) : Bool := (cfg.reachable[index]?).getD false

def exact (cfg : Cfg) : Bool := cfg.exact_

/-- The indices of the reachable words, in order. -/
def reachableIndices (cfg : Cfg) : List Nat :=
  (List.range cfg.reachable.length).filter cfg.isReachable

end Cfg

end MarieRs.Lint
