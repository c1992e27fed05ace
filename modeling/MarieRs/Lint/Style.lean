import MarieRs.Lint.Flow

namespace MarieRs.Lint

open Asm (Code Diagnostic Lint LintContext MnemonicKind)

def NON_CANONICAL_MNEMONIC : Code := ⟨LINT, "non-canonical-mnemonic"⟩
def LABEL_SHADOWS_MNEMONIC : Code := ⟨LINT, "label-shadows-mnemonic"⟩
def MISSING_HALT : Code := ⟨LINT, "missing-halt"⟩

/-- The canonical spelling of a mnemonic that is known. -/
def canonical : MnemonicKind → Option String
  | .opcode opcode => some opcode.mnemonic
  | .directive directive => some directive.mnemonic
  | .unknown => none

/-- A mnemonic not written in its canonical spelling. -/
def NonCanonicalMnemonic : Lint where
  code := NON_CANONICAL_MNEMONIC
  description := "a mnemonic is not written in its canonical spelling"
  run cx := cx.assembly.program.items.flatMap fun item =>
    match canonical item.mnemonic.kind with
    | none => []
    | some spelling =>
      if item.mnemonic.text = spelling.toList then []
      else
        [(Diagnostic.advice NON_CANONICAL_MNEMONIC item.mnemonic.span item.line
          ("Write `" ++ spelling ++ "` rather than `" ++ String.ofList item.mnemonic.text ++
            "`.")).withHelp "Consistent spelling makes a program easier to search."]

/-- A label spelled like an instruction or directive. -/
def LabelShadowsMnemonic : Lint where
  code := LABEL_SHADOWS_MNEMONIC
  description := "a label is spelled like an instruction or directive"
  run cx := cx.assembly.symbols.iter.flatMap fun symbol =>
    let lowered := toAsciiLowercase symbol.name
    if (Opcode.fromMnemonic lowered).isSome ∨ (Directive.fromMnemonic lowered).isSome then
      [(Diagnostic.advice LABEL_SHADOWS_MNEMONIC symbol.definition symbol.line
        ("Label '" ++ String.ofList symbol.name ++ "' is spelled like a mnemonic.")).withHelp
          ("Rename it; mnemonics are matched case-insensitively, so this reads " ++
            "ambiguously.")]
    else []

/-- A program with no `Halt` anywhere. It points at the first word. -/
def MissingHalt : Lint where
  code := MISSING_HALT
  description := "the program contains no Halt instruction"
  run cx :=
    match cx.assembly.program.items with
    | [] => []
    | first :: rest =>
      if (first :: rest).any fun item => item.mnemonic.kind == .opcode .halt then []
      else
        [(Diagnostic.warning MISSING_HALT first.span first.line
          "This program contains no Halt instruction.").withHelp
            "Every path should end at a `Halt`, or the machine runs on into memory."]

end MarieRs.Lint
