import MarieRs.Asm.Parser

namespace MarieRs.Asm

/-- The variables of the second pass. -/
structure AssembleState where
  symbols : SymbolTable
  diagnostics : List Diagnostic

namespace AssembleState

def report (st : AssembleState) (diagnostic : Diagnostic) : AssembleState :=
  { st with diagnostics := st.diagnostics ++ [diagnostic] }

end AssembleState

/-- Emits a `DEC`, `OCT` or `HEX` literal. -/
def assembleLiteral (item : Item) (radix : Radix) (st : AssembleState) : Word × AssembleState :=
  match item.operand with
  | none => (0, st.report (.error .MISSING_OPERAND item.span item.line "Expected operand."))
  | some operand =>
    match parseWord operand.text radix with
    | .ok value => (value, st)
    | .error .outOfRange =>
      (0, st.report
        (.error .LITERAL_OUT_OF_RANGE operand.span item.line "Literal out of bounds."))
    | .error _ =>
      (0, st.report
        (.error .MALFORMED_LITERAL operand.span item.line "Failed to parse operand."))

/-- Resolves the mnemonic to an opcode, rewriting `ADR` and `Clear`. The literal
directives have been dealt with before. -/
def resolveAlias (item : Item) (st : AssembleState) :
    Option (Opcode × Option Operand) × AssembleState :=
  let unknown := st.report (.error .UNKNOWN_MNEMONIC item.mnemonic.span item.line
    ("Unknown operator '" ++ String.ofList item.mnemonic.lowercase ++ "'."))
  match item.mnemonic.kind with
  | .opcode opcode => (some (opcode, item.operand), st)
  | .directive .adr => (some (.jnS, item.operand), st)
  | .directive .clear => (some (.loadImmi, some ⟨['0'], item.mnemonic.span⟩), st)
  | .directive .org | .directive .end_ | .unknown => (none, unknown)
  | .directive .dec | .directive .oct | .directive .hex => (none, st)

/-- Suggests a fix for an operand that was read as a label. -/
def unknownLabelHelp (text : Str) : String :=
  let looksLikeHex := text ≠ [] ∧ text.all isAsciiHexdigit
  let fitsTheAddressField := utf8Len (text.dropWhile (· == '0')) ≤ 3
  if looksLikeHex ∧ fitsTheAddressField then
    "If `" ++ String.ofList text ++ "` was meant to be an address, write it as `0" ++
      String.ofList text ++ "`: an operand is only read as a hexadecimal literal when it " ++
      "starts with a decimal digit."
  else "Define it as `label, ...`, or write a hexadecimal address starting with a digit."

/-- Leading zeros carry no weight, and stripping them keeps a long literal from
overflowing. -/
def parseAddressLiteral (item : Item) (operand : Operand) (st : AssembleState) :
    Option MemoryAddress × AssembleState :=
  let digits := operand.text.dropWhile (· == '0')
  let value :=
    if digits = [] then some 0
    else if utf8Len digits ≤ 3 then fromStrRadix (2 ^ 16 - 1) 16 digits
    else none
  match value.bind MemoryAddress.tryNew with
  | some address => (some address, st)
  | none =>
    (none, st.report
      ((Diagnostic.error .ADDRESS_OUT_OF_RANGE operand.span item.line
        ("Address 0x" ++ String.ofList operand.text ++ " is out of bounds.")).withHelp
          "The address field is 12 bits, so the operand must be at most 0xFFF."))

/-- Turns an operand into an address, by parsing it or by looking it up. -/
def resolveOperand (item : Item) (operand : Operand) (st : AssembleState) :
    Option MemoryAddress × AssembleState :=
  if looksLikeAddressLiteral operand.text then parseAddressLiteral item operand st
  else
    match st.symbols.reference operand.text operand.span with
    | (some address, symbols) => (some address, { st with symbols })
    | (none, symbols) =>
      (none, { st with symbols }.report
        ((Diagnostic.error .UNKNOWN_LABEL operand.span item.line
          ("Unknown label '" ++ String.ofList operand.text ++ "'.")).withHelp
            (unknownLabelHelp operand.text)))

/-- The ordinary instruction path. -/
def assembleInstruction (item : Item) (st : AssembleState) : Word × AssembleState :=
  match resolveAlias item st with
  | (none, st) => (0, st)
  | (some (opcode, none), st) =>
    if opcode.takesOperand then
      (0, st.report (.error .MISSING_OPERAND item.span item.line
        ("Expected operand for " ++ String.ofList item.mnemonic.lowercase ++ ".")))
    else (Instruction.encode ⟨opcode, MemoryAddress.zero⟩, st)
  | (some (opcode, some operand), st) =>
    if ¬ opcode.takesOperand then
      (0, st.report (.error .UNEXPECTED_OPERAND operand.span item.line
        ("Unexpected operand '" ++ String.ofList operand.text ++ "' for '" ++
          String.ofList item.mnemonic.lowercase ++ "'.")))
    else
      match resolveOperand item operand st with
      | (none, st) => (0, st)
      | (some address, st) => (Instruction.encode ⟨opcode, address⟩, st)

/-- Assembles one item, into zero if it cannot be assembled. -/
def assembleItem (item : Item) (st : AssembleState) : Word × AssembleState :=
  match item.mnemonic.kind with
  | .directive directive =>
    match directive.literalRadix with
    | some radix => assembleLiteral item radix st
    | none => assembleInstruction item st
  | _ => assembleInstruction item st

/-- One word per item, in order. -/
def assembleItems : List Item → AssembleState → List Word × AssembleState
  | [], st => ([], st)
  | item :: items, st =>
    let (word, st) := assembleItem item st
    let (words, st) := assembleItems items st
    (word :: words, st)

/-- The result of assembling a source, whether or not it succeeded. -/
structure Assembly where
  program : Program
  origin : MemoryAddress
  words : List Word
  symbols : SymbolTable
  sourceMap : SourceMap
  diagnostics : List Diagnostic
  lines : LineIndex

def Assembly.succeeded (a : Assembly) : Bool := !a.diagnostics.any Diagnostic.isError

/-- Both passes, without lints. -/
def assemble (source : Str) : Assembly :=
  let (parsed, diagnostics) := parse source
  let (words, st) := assembleItems parsed.program.items ⟨parsed.symbols, diagnostics⟩
  { program := parsed.program
    origin := parsed.program.originAddress
    words
    symbols := st.symbols
    sourceMap := parsed.sourceMap
    diagnostics := st.diagnostics
    lines := .new source }

end MarieRs.Asm
