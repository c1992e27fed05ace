import MarieRs.Asm.Assembler

namespace MarieRs.Asm

/-- What a lint gets to look at. -/
structure LintContext where
  assembly : Assembly
  source : Str

/-- A check over a finished assembly. -/
structure Lint where
  code : Code
  description : String
  run : LintContext → List Diagnostic

/-- Labels that nothing refers to. -/
def UnusedLabel : Lint where
  code := .UNUSED_LABEL
  description := "a label is defined but never referenced"
  run cx := cx.assembly.symbols.unused.map fun symbol =>
    (Diagnostic.warning .UNUSED_LABEL symbol.definition symbol.line
      ("Label '" ++ String.ofList symbol.name ++ "' is never used.")).withHelp
        "Remove it, or reference it from an operand."

/-- Text after an `END` directive. -/
def UnreachableCode : Lint where
  code := .UNREACHABLE_CODE
  description := "code follows an END directive and is never assembled"
  run cx :=
    match cx.assembly.program.end_, cx.assembly.program.trailing with
    | some end_, some trailing =>
      [((Diagnostic.warning .UNREACHABLE_CODE trailing
        (cx.assembly.lines.position trailing.start).line
        "Code after END is never assembled.").withLabel end_.span "assembly stops here").withHelp
          "Move this above the END directive, or delete it."]
    | _, _ => []

/-- An operand that `Clear` silently discards. -/
def IgnoredOperand : Lint where
  code := .IGNORED_OPERAND
  description := "an operand is silently discarded by the assembler"
  run cx := cx.assembly.program.items.flatMap fun item =>
    if item.mnemonic.kind ≠ .directive .clear then []
    else
      match item.operand with
      | none => []
      | some operand =>
        [(Diagnostic.warning .IGNORED_OPERAND operand.span item.line
          ("'" ++ String.ofList operand.text ++
            "' is ignored: Clear always assembles as LoadImmi 0.")).withHelp
              "Write `LoadImmi <value>` to load something other than zero."]

/-- The lints of the assembler, in reporting order. -/
def STANDARD : List Lint := [UnusedLabel, UnreachableCode, IgnoredOperand]

end MarieRs.Asm
