import MarieRs.Asm.Span

namespace MarieRs.Asm

inductive Severity where
  | error | warning | advice
  deriving DecidableEq, Repr

/-- A stable identifier, `namespace::name`. -/
structure Code where
  space : String
  name : String
  deriving DecidableEq, Repr

namespace Code

def ASM : String := "asm"

def MALFORMED_LINE : Code := ⟨ASM, "malformed-line"⟩
def UNEXPECTED_ORIGIN : Code := ⟨ASM, "unexpected-origin"⟩
def LABEL_STARTS_WITH_DIGIT : Code := ⟨ASM, "label-starts-with-digit"⟩
def LABEL_CONTAINS_WHITESPACE : Code := ⟨ASM, "label-contains-whitespace"⟩
def DUPLICATE_LABEL : Code := ⟨ASM, "duplicate-label"⟩
def UNKNOWN_LABEL : Code := ⟨ASM, "unknown-label"⟩
def UNKNOWN_MNEMONIC : Code := ⟨ASM, "unknown-mnemonic"⟩
def MISSING_OPERAND : Code := ⟨ASM, "missing-operand"⟩
def UNEXPECTED_OPERAND : Code := ⟨ASM, "unexpected-operand"⟩
def MALFORMED_LITERAL : Code := ⟨ASM, "malformed-literal"⟩
def LITERAL_OUT_OF_RANGE : Code := ⟨ASM, "literal-out-of-range"⟩
def ADDRESS_OUT_OF_RANGE : Code := ⟨ASM, "address-out-of-range"⟩
def PROGRAM_TOO_LARGE : Code := ⟨ASM, "program-too-large"⟩
def IGNORED_OPERAND : Code := ⟨ASM, "ignored-operand"⟩
def UNUSED_LABEL : Code := ⟨ASM, "unused-label"⟩
def UNREACHABLE_CODE : Code := ⟨ASM, "unreachable-code"⟩

def display (code : Code) : String := code.space ++ "::" ++ code.name

end Code

/-- A span with an optional note. -/
structure Diagnostic.Label where
  span : Span
  message : Option String
  deriving DecidableEq, Repr

structure Diagnostic where
  severity : Severity
  code : Code
  span : Span
  line : Nat
  message : String
  labels : List Diagnostic.Label := []
  help : Option String := none
  deriving DecidableEq, Repr

namespace Diagnostic

def error (code : Code) (span : Span) (line : Nat) (message : String) : Diagnostic :=
  { severity := .error, code, span, line, message }

def warning (code : Code) (span : Span) (line : Nat) (message : String) : Diagnostic :=
  { severity := .warning, code, span, line, message }

def advice (code : Code) (span : Span) (line : Nat) (message : String) : Diagnostic :=
  { severity := .advice, code, span, line, message }

def withLabel (d : Diagnostic) (span : Span) (message : String) : Diagnostic :=
  { d with labels := d.labels ++ [⟨span, some message⟩] }

def withHelp (d : Diagnostic) (help : String) : Diagnostic := { d with help := some help }

def isError (d : Diagnostic) : Bool := d.severity == .error

@[simp] theorem code_error (code : Code) (span : Span) (line : Nat) (message : String) :
    (error code span line message).code = code := rfl

@[simp] theorem code_withLabel (d : Diagnostic) (span : Span) (message : String) :
    (d.withLabel span message).code = d.code := rfl

@[simp] theorem code_withHelp (d : Diagnostic) (help : String) :
    (d.withHelp help).code = d.code := rfl

@[simp] theorem isError_error (code : Code) (span : Span) (line : Nat) (message : String) :
    (error code span line message).isError = true := rfl

@[simp] theorem isError_withLabel (d : Diagnostic) (span : Span) (message : String) :
    (d.withLabel span message).isError = d.isError := rfl

@[simp] theorem isError_withHelp (d : Diagnostic) (help : String) :
    (d.withHelp help).isError = d.isError := rfl

end Diagnostic

end MarieRs.Asm
