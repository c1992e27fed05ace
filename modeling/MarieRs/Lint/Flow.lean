import MarieRs.Asm.Lint
import MarieRs.Lint.Cfg

namespace MarieRs.Lint

open Asm (Item Code Diagnostic Lint LintContext)

def LINT : String := "lint"

/-- The graph, unless the program is not worth analysing. -/
def graph (cx : LintContext) : Option Cfg :=
  if ¬ cx.assembly.succeeded ∨ cx.assembly.program.items.isEmpty then none
  else some (.new cx.assembly)

/-- Goes through the items at some indices. Those of a graph are all there. -/
def overItems (cx : LintContext) (indices : List Nat)
    (check : Nat → Item → List Diagnostic) : List Diagnostic :=
  indices.flatMap fun index =>
    match cx.assembly.program.items[index]? with
    | some item => check index item
    | none => []

def FALLS_OFF_END : Code := ⟨LINT, "falls-off-end"⟩
def FALLS_INTO_DATA : Code := ⟨LINT, "falls-into-data"⟩
def UNREACHABLE_INSTRUCTION : Code := ⟨LINT, "unreachable-instruction"⟩
def JUMPS_OUTSIDE : Code := ⟨LINT, "jumps-outside-program"⟩

/-- Execution can run past the last word. -/
def FallsOffEnd : Lint where
  code := FALLS_OFF_END
  description := "execution can continue past the last word of the program"
  run cx :=
    match graph cx with
    | none => []
    | some cfg =>
      overItems cx cfg.reachableIndices fun index item =>
        if cfg.kind index ≠ some .code then []
        else if Edge.offEnd ∉ cfg.edges cx.assembly index then []
        else
          [(Diagnostic.warning FALLS_OFF_END item.span item.line
            "Execution can continue past the end of the program from here.").withHelp
              "End the path with `Halt`, or jump somewhere that does."]

/-- Execution can reach a word that was written as data. -/
def FallsIntoData : Lint where
  code := FALLS_INTO_DATA
  description := "execution can reach a word that was declared as data"
  run cx :=
    match graph cx with
    | none => []
    | some cfg =>
      overItems cx cfg.reachableIndices fun index item =>
        if cfg.kind index ≠ some .data then []
        else
          let effect :=
            match (cx.assembly.words[index]?).bind Instruction.decode with
            | some instruction => "executed as `" ++ instruction.display ++ "`"
            | none => "executed as an invalid instruction"
          [(Diagnostic.warning FALLS_INTO_DATA item.span item.line
            ("This data word can be reached by execution, and would be " ++ effect ++
              ".")).withHelp
              "Put a `Halt` or a `Jump` above the data so control cannot fall into it."]

/-- A word that nothing can reach. -/
def UnreachableInstruction : Lint where
  code := UNREACHABLE_INSTRUCTION
  description := "a word cannot be reached by any path from the entry point"
  run cx :=
    match graph cx with
    | none => []
    | some cfg =>
      if ¬ cfg.exact then []
      else
        overItems cx (List.range cx.assembly.program.items.length) fun index item =>
          if cfg.isReachable index ∨ cfg.kind index ≠ some .code then []
          else
            [(Diagnostic.warning UNREACHABLE_INSTRUCTION item.span item.line
              "This instruction can never be reached.").withHelp
                "Remove it, or add a jump that reaches it."]

/-- Control leaves the assembled program. -/
def JumpsOutsideProgram : Lint where
  code := JUMPS_OUTSIDE
  description := "a jump targets an address the program does not occupy"
  run cx :=
    match graph cx with
    | none => []
    | some cfg =>
      overItems cx cfg.reachableIndices fun index item =>
        (cfg.edges cx.assembly index).flatMap fun
          | .outside address =>
            [(Diagnostic.warning JUMPS_OUTSIDE item.span item.line
              ("This transfers control to " ++ address.display ++
                ", which is outside the program.")).withHelp
                "That memory is zero-filled, so execution would run into `JnS 000`."]
          | _ => []

end MarieRs.Lint
