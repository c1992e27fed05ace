import MarieRs.Lint.Flow

namespace MarieRs.Lint

open Asm (Code Diagnostic Lint LintContext looksLikeAddressLiteral)

def MASKED_SKIPCOND : Code := ⟨LINT, "masked-skipcond"⟩
def SKIPCOND_LABEL_OPERAND : Code := ⟨LINT, "skipcond-label-operand"⟩
def JNS_OVERWRITES_CODE : Code := ⟨LINT, "jns-overwrites-code"⟩
def SELF_MODIFYING_CODE : Code := ⟨LINT, "self-modifying-code"⟩

/-- A `Skipcond` whose operand is not one of the four conditions: the low ten bits of its
word select nothing. -/
def MaskedSkipcond : Lint where
  code := MASKED_SKIPCOND
  description := "a Skipcond operand has bits that are silently ignored"
  run cx :=
    overItems cx (List.range cx.assembly.program.items.length) fun index item =>
      if effectiveOpcode item ≠ some .skipCond then []
      else
        match cx.assembly.words[index]? with
        | none => []
        | some word =>
          let operand := MemoryAddress.newMasked word
          if operand &&& 0x3FF#12 = 0#12 then []
          else
            let condition := SkipCondition.fromOperand operand
            match item.operand with
            | none => []
            | some node =>
              [(Diagnostic.warning MASKED_SKIPCOND node.span item.line
                ("Skipcond " ++ operand.display ++
                  " is not a condition: only bits 11-10 of the operand are read, so this " ++
                  "silently behaves as `Skipcond " ++ condition.toOperand.display ++
                  "` and tests `" ++ condition.display ++ "`.")).withHelp
                    ("The four conditions are 000 (AC < 0), 400 (AC = 0), 800 (AC > 0) and " ++
                      "0C00 (AC != 0). Note that 0C00 needs the leading zero.")]

/-- A `Skipcond` whose operand is a label. -/
def SkipcondLabelOperand : Lint where
  code := SKIPCOND_LABEL_OPERAND
  description := "a Skipcond operand is a label rather than a condition"
  run cx := cx.assembly.program.items.flatMap fun item =>
    if effectiveOpcode item ≠ some .skipCond then []
    else
      match item.operand with
      | none => []
      | some operand =>
        if looksLikeAddressLiteral operand.text then []
        else
          match cx.assembly.symbols.get operand.text with
          | none => []
          | some symbol =>
            let condition := SkipCondition.fromOperand symbol.address
            [((Diagnostic.warning SKIPCOND_LABEL_OPERAND operand.span item.line
              ("'" ++ String.ofList operand.text ++ "' is a label at " ++
                symbol.address.display ++ ", so this tests `" ++ condition.display ++
                "` rather than branching to it.")).withLabel symbol.definition
                  "the label is defined here").withHelp
                    ("Skipcond takes a condition, not an address. Use `Jump` to branch, or " ++
                      "write one of 000, 400, 800 or 0C00.")]

/-- The item that a word of the program writes to, if its address is inside. -/
def slotOf (cx : LintContext) (cfg : Cfg) (index : Nat) : Option (MemoryAddress × Nat) :=
  (cx.assembly.words[index]?).bind fun word =>
    let target := MemoryAddress.newMasked word
    (cfg.indexOf target).map fun slot => (target, slot)

/-- A `JnS` whose return slot holds an instruction. -/
def JnsOverwritesCode : Lint where
  code := JNS_OVERWRITES_CODE
  description := "a JnS return slot holds an instruction that the call will overwrite"
  run cx :=
    match graph cx with
    | none => []
    | some cfg =>
      overItems cx (List.range cx.assembly.program.items.length) fun index item =>
        if effectiveOpcode item ≠ some .jnS then []
        else
          match slotOf cx cfg index with
          | none => []
          | some (target, slot) =>
            if cfg.kind slot ≠ some .code then []
            else
              overItems cx [slot] fun _ victim =>
                [((Diagnostic.warning JNS_OVERWRITES_CODE item.span item.line
                  ("This call writes its return address to " ++ target.display ++
                    ", overwriting the instruction there.")).withLabel victim.span
                      "this instruction is overwritten").withHelp
                        "Reserve a word for the return address, such as `Sub, HEX 0`."]

/-- A `Store` that targets an instruction that runs. -/
def SelfModifyingCode : Lint where
  code := SELF_MODIFYING_CODE
  description := "a Store writes over a word that is executed as an instruction"
  run cx :=
    match graph cx with
    | none => []
    | some cfg =>
      overItems cx (List.range cx.assembly.program.items.length) fun index item =>
        if effectiveOpcode item ≠ some .store then []
        else
          match slotOf cx cfg index with
          | none => []
          | some (target, slot) =>
            if cfg.kind slot ≠ some .code ∨ ¬ cfg.isReachable slot then []
            else
              overItems cx [slot] fun _ victim =>
                [((Diagnostic.advice SELF_MODIFYING_CODE item.span item.line
                  ("This writes over the instruction at " ++ target.display ++ ".")).withLabel
                    victim.span "this instruction is modified at run time").withHelp
                      ("If that is deliberate, a comment saying so will save the next " ++
                        "reader.")]

end MarieRs.Lint
