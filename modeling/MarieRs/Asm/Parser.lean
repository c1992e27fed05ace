import MarieRs.Asm.Ast
import MarieRs.Asm.Diagnostic
import MarieRs.Asm.Lexer
import MarieRs.Asm.Symbols

namespace MarieRs.Asm

/-- What the first pass produced. -/
structure Parsed where
  program : Program := {}
  symbols : SymbolTable := {}
  sourceMap : SourceMap := {}

/-- The variables of the loop in `parse`. -/
structure ParseState where
  out : Parsed := {}
  diagnostics : List Diagnostic := []
  base : Nat := 0
  lineNumber : Nat := 0
  stopped : Bool := false

/-- The span of a line with its surrounding whitespace removed. -/
def trimmedSpan (text : Str) (base : Nat) : Span :=
  let stop := trimEnd text
  let start := utf8Len stop - utf8Len (trimStart stop)
  .new (base + start) (base + utf8Len stop)

/-- `Span::text` with the fallback the parser gives it. -/
def textOf (source : Str) (span : Span) : Str := (span.text source).getD []

/-- The address the next word will occupy, unless it is past the end of memory. -/
def nextAddress (out : Parsed) : Option MemoryAddress :=
  MemoryAddress.tryNew (out.program.originAddress.toNat + out.program.items.length)

/-- Resolves a lowercased mnemonic. -/
def classify (lowercase : Str) : MnemonicKind :=
  match Opcode.fromMnemonic lowercase with
  | some opcode => .opcode opcode
  | none =>
    match Directive.fromMnemonic lowercase with
    | some directive => .directive directive
    | none => .unknown

/-- Handles a well-formed `ORG hhh` line, which may come once, before any word. -/
def parseOrigin (source : Str) (st : ParseState) (keyword digits : Span) : ParseState :=
  let span := keyword.join digits
  if ¬ st.out.program.items.isEmpty ∨ st.out.program.origin.isSome then
    { st with
      diagnostics := st.diagnostics ++
        [.error .UNEXPECTED_ORIGIN span st.lineNumber "Unexpected origination directive."] }
  else
    let text := (digits.text source).getD ['0']
    let address := (fromStrRadix (2 ^ 16 - 1) 16 text).getD 0
    let origin : Origin :=
      ⟨MemoryAddress.newMasked (BitVec.ofNat 16 address), digits, span, st.lineNumber⟩
    { st with out := { st.out with program := { st.out.program with origin := some origin } } }

/-- Records a label definition, or says why the label is rejected. -/
def defineLabel (source : Str) (symbols : SymbolTable) (span : Span) (address : MemoryAddress)
    (line : Nat) : Except Diagnostic SymbolTable :=
  let name := textOf source span
  if (name.head?).any isAsciiDigit then
    .error (.error .LABEL_STARTS_WITH_DIGIT span line "Labels cannot start with a number.")
  else if name.any isWhitespace then
    .error (.error .LABEL_CONTAINS_WHITESPACE span line "Labels cannot contain whitespace.")
  else
    match symbols.define name address span line with
    | .error existing =>
      .error ((Diagnostic.error .DUPLICATE_LABEL span line
        ("Labels must be unique. The label '" ++ String.ofList name ++
          "' was already defined on line " ++ toString (existing.line + 1) ++ ".")).withLabel
            existing.definition "first defined here")
    | .ok symbols => .ok symbols

/-- What follows the label check of a statement: `END` stops, anything else is an
item. -/
def parseBody (source : Str) (st : ParseState) (address : MemoryAddress) (label : Option Span)
    (mnemonicSpan : Span) (operandSpan comment : Option Span) : ParseState :=
  let text := textOf source mnemonicSpan
  let lowercase := toAsciiLowercase text
  let sourceMap := st.out.sourceMap.insert address st.lineNumber
  let program := st.out.program
  if lowercase = "end".toList then
    { st with
      out := { st.out with
        sourceMap
        program := { program with end_ := some ⟨mnemonicSpan, st.lineNumber⟩ } }
      stopped := true }
  else
    let item : Item :=
      { label := label.map fun span => ⟨textOf source span, span⟩
        mnemonic := { text, lowercase, kind := classify lowercase, span := mnemonicSpan }
        operand := operandSpan.map fun span => ⟨textOf source span, span⟩
        comment
        address
        line := st.lineNumber
        span :=
          match operandSpan with
          | some operand => mnemonicSpan.join operand
          | none => mnemonicSpan }
    { st with
      out := { st.out with
        sourceMap
        program := { program with items := program.items ++ [item] } } }

/-- Handles a statement line: the address check first, then the label, and only
then the operation. -/
def parseStatement (source : Str) (st : ParseState) (label : Option Span) (mnemonicSpan : Span)
    (operandSpan comment : Option Span) : ParseState :=
  match nextAddress st.out with
  | none =>
    { st with
      diagnostics := st.diagnostics ++
        [.error .PROGRAM_TOO_LARGE mnemonicSpan st.lineNumber
          ("Program does not fit in the " ++ toString MEMORY_WORD_COUNT ++
            "-word address space.")]
      stopped := true }
  | some address =>
    match label with
    | none => parseBody source st address label mnemonicSpan operandSpan comment
    | some span =>
      match defineLabel source st.out.symbols span address st.lineNumber with
      | .error diagnostic => { st with diagnostics := st.diagnostics ++ [diagnostic] }
      | .ok symbols =>
        parseBody source { st with out := { st.out with symbols } } address label mnemonicSpan
          operandSpan comment

/-- A line after `END`: only the first that is not blank leaves a trace. -/
def skipLine (source : Str) (st : ParseState) (text : Str) : ParseState :=
  if st.out.program.trailing.isNone ∧ trim text ≠ [] then
    let span := trimmedSpan text st.base
    { st with
      out := { st.out with
        program := { st.out.program with trailing := some (.new span.start (utf8Len source)) } } }
  else st

def parseForm (source : Str) (st : ParseState) (text : Str) : ParseState :=
  match splitLine text st.base with
  | .blank _ => st
  | .origin keyword digits _ => parseOrigin source st keyword digits
  | .statement label mnemonic operand comment =>
    parseStatement source st label mnemonic operand comment
  | .malformed =>
    { st with
      diagnostics := st.diagnostics ++
        [(Diagnostic.error .MALFORMED_LINE (trimmedSpan text st.base) st.lineNumber
          "Line has incorrect form.").withHelp "Expected `label, mnemonic operand / comment`."] }

/-- One round of the loop in `parse`. -/
def parseLine (source : Str) (st : ParseState) (text : Str) : ParseState :=
  let st := if st.stopped then skipLine source st text else parseForm source st text
  { st with base := st.base + utf8Len text + 1, lineNumber := st.lineNumber + 1 }

def parse (source : Str) : Parsed × List Diagnostic :=
  let st := (source.splitOn '\n').foldl (parseLine source) {}
  (st.out, st.diagnostics)

end MarieRs.Asm
