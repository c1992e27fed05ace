import MarieRs.Asm.Numerals
import MarieRs.Lsp.Diagnostics

namespace MarieRs.Lsp

open Asm (Code Span digitsValue looksLikeAddressLiteral)
open Lint (MASKED_SKIPCOND NON_CANONICAL_MNEMONIC SKIPCOND_LABEL_OPERAND canonical)

/-- `u16::from_str_radix` in base 16, which takes a leading `+`. -/
def parseHex : Str → Option Nat
  | '+' :: digits => fromStrRadix (2 ^ 16 - 1) 16 digits
  | digits => fromStrRadix (2 ^ 16 - 1) 16 digits

theorem parseHex_digits {digits : Str} (h : digits.all isAsciiHexdigit = true) :
    parseHex digits = fromStrRadix (2 ^ 16 - 1) 16 digits := by
  unfold parseHex
  split
  · rename_i rest
    rw [List.all_cons, Bool.and_eq_true] at h
    exact absurd h.1 (by decide)
  · rfl

/-- Past its leading zeros, a literal is worth what it writes, unless that is too large or nothing
is left. -/
theorem parseHex_literal {text : Str} (h : looksLikeAddressLiteral text = true) :
    parseHex (text.dropWhile (· == '0')) =
      if text.dropWhile (· == '0') ≠ [] ∧ digitsValue 16 text ≤ 2 ^ 16 - 1 then
        some (digitsValue 16 text)
      else none := by
  have hstripped : (text.dropWhile (· == '0')).all isAsciiHexdigit = true :=
    List.all_eq_true.mpr fun c hc =>
      List.all_eq_true.mp (Asm.literal_hexdigits h) c ((List.dropWhile_suffix _).subset hc)
  rw [parseHex_digits hstripped]
  by_cases hne : text.dropWhile (· == '0') = []
  · rw [hne, if_neg (by simp)]
    rfl
  · rw [Asm.fromStrRadix_eq le_rfl hne fun c hc =>
      Asm.hexdigit_digit (List.all_eq_true.mp hstripped c hc), Asm.digitsValue_zeros]
    simp only [hne, ne_eq, not_false_eq_true, true_and]

theorem parseHex_value {text : Str} {value : Nat} (hliteral : looksLikeAddressLiteral text = true)
    (h : parseHex (text.dropWhile (· == '0')) = some value) : value = digitsValue 16 text := by
  rw [parseHex_literal hliteral] at h
  split at h
  · cases h
    rfl
  · cases h

/-- A condition as an operand that is read as a literal. -/
def canonicalCondition (condition : SkipCondition) : Str :=
  let operand := condition.toOperand.display.toList
  if (operand.head?).any isAsciiDigit then operand else '0' :: operand

/-- What a quick fix is called, what it replaces and by what. -/
structure Fix where
  title : String
  span : Span
  replacement : Str
  deriving DecidableEq

/-- The edit for a finding, if there is a mechanical one. -/
def fix (document : LintedDocument) (code : Code) (span : Span) : Option Fix :=
  (span.text document.text).bind fun text =>
    if code = .UNKNOWN_LABEL then
      if (text ≠ [] ∧ text.all isAsciiHexdigit) ∧ utf8Len (text.dropWhile (· == '0')) ≤ 3 then
        some ⟨"Read `" ++ String.ofList text ++ "` as the address `0" ++ String.ofList text ++ "`",
          span, '0' :: text⟩
      else none
    else if code = MASKED_SKIPCOND then
      (parseHex (text.dropWhile (· == '0'))).map fun operand =>
        let condition :=
          SkipCondition.fromOperand (MemoryAddress.newMasked (BitVec.ofNat 16 operand))
        ⟨"Change to `Skipcond " ++ String.ofList (canonicalCondition condition) ++ "` (" ++
          condition.display ++ ")", span, canonicalCondition condition⟩
    else if code = NON_CANONICAL_MNEMONIC then
      (document.assembly.program.itemAt span.start).bind fun item =>
        (canonical item.mnemonic.kind).map fun spelling =>
          ⟨"Write `" ++ spelling ++ "`", item.mnemonic.span, spelling.toList⟩
    else if code = SKIPCOND_LABEL_OPERAND then
      (document.assembly.program.itemAt span.start).bind fun item =>
        if item.mnemonic.kind = .opcode .skipCond then
          some ⟨"Branch to `" ++ String.ofList text ++ "` with `Jump` instead", item.mnemonic.span,
            "Jump".toList⟩
        else none
    else none

/-- A quick fix, which is always preferred. -/
structure CodeAction where
  title : String
  diagnostics : Option (List Diagnostic)
  edit : WorkspaceEdit
  deriving DecidableEq

/-- The quick fix of one edit. -/
def action (title : String) (uri : Uri) (range : Range) (newText : Str)
    (diagnostic : Option Diagnostic) : CodeAction :=
  ⟨title, diagnostic.map fun d => [d], ⟨[(uri, [⟨range, newText⟩])]⟩⟩

/-- The quick fix for the finding with a given index. -/
def actionFor (document : LintedDocument) (uri : Uri) (encoding : PositionEncoding)
    (finding : Asm.Diagnostic) (index : Nat) : Option CodeAction :=
  (fix document finding.code finding.span).map fun fix =>
    action fix.title uri ((document.positions encoding).range fix.span) fix.replacement
      (diagnostics document uri encoding)[index]?

def Selected (finding : Asm.Diagnostic) (selection : Span) : Prop :=
  finding.span.start ≤ selection.stop ∧ selection.start ≤ finding.span.stop

instance (finding : Asm.Diagnostic) (selection : Span) : Decidable (Selected finding selection) :=
  inferInstanceAs (Decidable (_ ∧ _))

/-- The fixes for what touches a range. -/
def codeActions (document : LintedDocument) (uri : Uri) (range : Range)
    (encoding : PositionEncoding) : List CodeAction :=
  let selection := (document.positions encoding).spanClamped range
  (document.findings.zipIdx.filter fun found => Selected found.1 selection).filterMap
    fun found => actionFor document uri encoding found.1 found.2

/-- Among the fixes for a range there is this one for this finding. -/
structure Offered (document : LintedDocument) (uri : Uri) (range : Range)
    (encoding : PositionEncoding) (finding : Asm.Diagnostic) (action : CodeAction) : Prop where
  selected : Selected finding ((document.positions encoding).spanClamped range)
  made : ∃ index, document.findings[index]? = some finding ∧
    actionFor document uri encoding finding index = some action

theorem mem_codeActions {document : LintedDocument} {uri : Uri} {range : Range}
    {encoding : PositionEncoding} {action : CodeAction} :
    action ∈ codeActions document uri range encoding ↔
      ∃ finding ∈ document.findings, Offered document uri range encoding finding action := by
  simp only [codeActions, List.mem_filterMap, List.mem_filter, decide_eq_true_eq]
  constructor
  · rintro ⟨⟨finding, index⟩, ⟨hfound, hselected⟩, haction⟩
    have hindex := List.mem_zipIdx_iff_getElem?.mp hfound
    exact ⟨finding, List.mem_of_getElem? hindex, hselected, index, hindex, haction⟩
  · rintro ⟨finding, -, hselected, index, hindex, haction⟩
    exact ⟨(finding, index), ⟨List.mem_zipIdx_iff_getElem?.mpr hindex, hselected⟩, haction⟩

theorem offered_of_mem {document : LintedDocument} {finding : Asm.Diagnostic} {f : Fix} (uri : Uri)
    {range : Range} {encoding : PositionEncoding} (hmem : finding ∈ document.findings)
    (hselected : Selected finding ((document.positions encoding).spanClamped range))
    (hfix : fix document finding.code finding.span = some f) :
    ∃ action, Offered document uri range encoding finding action ∧
      action.edit =
        ⟨[(uri, [⟨(document.positions encoding).range f.span, f.replacement⟩])]⟩ := by
  obtain ⟨index, hindex⟩ := List.mem_iff_getElem?.mp hmem
  refine ⟨action f.title uri ((document.positions encoding).range f.span) f.replacement
    (diagnostics document uri encoding)[index]?, ⟨hselected, index, hindex, ?_⟩, rfl⟩
  rw [actionFor, hfix, Option.map_some]

/-- The text of a document after an edit of the workspace. -/
def WorkspaceEdit.apply (edit : WorkspaceEdit) (uri : Uri) (encoding : PositionEncoding)
    (text : Str) : Str :=
  applyEdits encoding ((edit.changes.lookup uri).getD []) text

end MarieRs.Lsp
