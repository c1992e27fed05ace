import MarieRs.Lint.Linter
import MarieRs.Lsp.Navigation

namespace MarieRs.Lsp

open Asm (Severity)
open Lint (Linter)

/-- A document with what the assembler and the lints found in it. -/
structure LintedDocument extends Document where
  findings : List Asm.Diagnostic

def LintedDocument.new (text : Str) (linter : Linter) : LintedDocument :=
  let outcome := linter.check text
  ⟨⟨text, outcome.assembly⟩, outcome.diagnostics⟩

inductive DiagnosticSeverity where
  | ERROR | WARNING | HINT
  deriving DecidableEq, Repr

structure Location where
  uri : Uri
  range : Range
  deriving DecidableEq

structure DiagnosticRelatedInformation where
  location : Location
  message : String
  deriving DecidableEq

/-- A finding as a client sees it. -/
structure Diagnostic where
  range : Range
  severity : DiagnosticSeverity
  code : String
  source : String
  message : String
  relatedInformation : Option (List DiagnosticRelatedInformation)
  deriving DecidableEq

/-- Advice is guidance rather than a problem. -/
def severity : Severity → DiagnosticSeverity
  | .error => .ERROR
  | .warning => .WARNING
  | .advice => .HINT

def published (positions : Positions) (uri : Uri) (finding : Asm.Diagnostic) : Diagnostic :=
  let related := finding.labels.map fun label =>
    (⟨⟨uri, positions.range label.span⟩, label.message.getD "related"⟩ :
      DiagnosticRelatedInformation)
  { range := positions.range finding.span
    severity := severity finding.severity
    code := finding.code.display
    source := finding.code.space
    message :=
      match finding.help with
      | some help => finding.message ++ "\n\nhelp: " ++ help
      | none => finding.message
    relatedInformation := if related = [] then none else some related }

/-- Everything found in a document. -/
def diagnostics (document : LintedDocument) (uri : Uri) (encoding : PositionEncoding) :
    List Diagnostic :=
  document.findings.map (published (document.positions encoding) uri)

end MarieRs.Lsp
