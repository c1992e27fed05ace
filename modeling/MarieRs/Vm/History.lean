import MarieRs.Vm.Microcode

namespace MarieRs.Vm

/-- The change one micro-operation made, with what it takes to reverse it. -/
inductive Effect where
  | none
  | register (register : Register) (previous : Word)
  | memory (address : MemoryAddress) (previous : Word)
  | inputRead (previous value : Word)
  | outputWritten (value : Word)
  deriving DecidableEq, Repr

/-- Control-unit state, saved wholesale before each micro-operation. -/
structure Control where
  microPc : Nat
  instructionAddress : MemoryAddress
  decoded : Option Instruction
  comparison : Bool
  deriving DecidableEq, Repr

structure Entry where
  control : Control
  microOp : MicroOp
  effect : Effect
  deriving DecidableEq, Repr

/-- A bounded journal, most recent entry last. -/
structure History where
  entries : List Entry := []
  limit : Nat := 0
  deriving DecidableEq, Repr

namespace History

/-- The eviction loop of `set_limit`: drop from the front while too long. -/
def popFrontWhile (limit : Nat) : List Entry → List Entry
  | [] => []
  | e :: es => if (e :: es).length > limit then popFrontWhile limit es else e :: es

def setLimit (h : History) (limit : Nat) : History :=
  let entries := popFrontWhile limit h.entries
  { entries := if limit = 0 then [] else entries, limit }

def clear (h : History) : History := { h with entries := [] }

def last (h : History) : Option Entry := h.entries.getLast?

def record (h : History) (entry : Entry) : History :=
  if h.limit = 0 then h
  else if h.entries.length = h.limit then { h with entries := h.entries.tail ++ [entry] }
  else { h with entries := h.entries ++ [entry] }

def pop (h : History) : History := { h with entries := h.entries.dropLast }

theorem popFrontWhile_eq_drop (limit : Nat) (es : List Entry) :
    popFrontWhile limit es = es.drop (es.length - limit) := by
  induction es with
  | nil => simp [popFrontWhile]
  | cons e es ih =>
    rw [popFrontWhile]
    split
    · rename_i h
      rw [ih, show (e :: es).length - limit = (es.length - limit) + 1 by
        simp only [List.length_cons] at h ⊢
        omega, List.drop_succ_cons]
    · rename_i h
      rw [show (e :: es).length - limit = 0 by omega, List.drop_zero]

/-- A limit of zero empties the journal, so the special case changes nothing. -/
theorem setLimit_entries (h : History) (limit : Nat) :
    (h.setLimit limit).entries = h.entries.drop (h.entries.length - limit) := by
  simp only [setLimit, popFrontWhile_eq_drop]
  split
  · rename_i hl
    subst hl
    simp
  · rfl

theorem record_bounded {history : History} {entry : Entry}
    (h : history.entries.length ≤ history.limit) :
    (history.record entry).entries.length ≤ (history.record entry).limit := by
  unfold History.record
  split
  · exact h
  · split
    · simp only [List.length_append, List.length_tail, List.length_singleton]
      omega
    · simp only [List.length_append, List.length_singleton]
      omega

end History

inductive StepBackError where
  | noHistory
  | irreversibleInput
  | irreversibleOutput
  deriving DecidableEq, Repr

end MarieRs.Vm
