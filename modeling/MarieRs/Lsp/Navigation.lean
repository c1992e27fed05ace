import MarieRs.Asm.Assembler
import MarieRs.Lib.Splice
import MarieRs.Lsp.Encoding

namespace MarieRs.Lsp

open Asm (Assembly Symbol Role)

/-- An open document with its analysis, which is that of its current text. -/
structure Document where
  text : Str
  assembly : Assembly

namespace Document

def new (text : Str) : Document := ⟨text, Asm.assemble text⟩

def positions (document : Document) (encoding : PositionEncoding) : Positions :=
  ⟨document.text, document.assembly.lines, encoding⟩

end Document

abbrev Uri := Str

structure TextEdit where
  range : Range
  newText : Str
  deriving DecidableEq

/-- The edits of each document. -/
structure WorkspaceEdit where
  changes : List (Uri × List TextEdit)
  deriving DecidableEq

/-- The label written at a position, if there is one. -/
def symbolAt (document : Document) (position : Position) (encoding : PositionEncoding) :
    Option (Symbol × Role) :=
  ((document.positions encoding).offset position).bind document.assembly.symbols.findAt

/-- Why a label cannot be renamed to a given string. -/
def renameError (newName : Str) : Option String :=
  if newName = [] then some "a label cannot be empty"
  else if (newName.head?).any isAsciiDigit then some "a label cannot start with a digit"
  else if newName.any isWhitespace then some "a label cannot contain whitespace"
  else if newName.contains ',' then some "a label cannot contain a comma"
  else if newName.contains '/' then
    some "a label cannot contain a slash, which starts a comment"
  else none

/-- Renames the label at a position, its definition and every reference. -/
def rename (document : Document) (uri : Uri) (position : Position) (newName : Str)
    (encoding : PositionEncoding) : Except String (Option WorkspaceEdit) :=
  match renameError newName with
  | some reason => .error reason
  | none =>
    match symbolAt document position encoding with
    | none => .ok none
    | some (symbol, _) =>
      if symbol.name ≠ newName ∧ document.assembly.symbols.contains newName then
        .error "a label with that name already exists"
      else
        let positions := document.positions encoding
        let edits := (symbol.definition :: symbol.references).map fun span =>
          (⟨positions.range span, newName⟩ : TextEdit)
        .ok (some ⟨[(uri, edits)]⟩)

/-- Where a client is after one more character. -/
def advance (encoding : PositionEncoding) (p : Position) (c : Char) : Position :=
  if c = '\n' then ⟨p.line + 1, 0⟩ else ⟨p.line, p.character + encoding.width c⟩

/-- All edits at once, their ranges read in the encoding. -/
def applyEdits (encoding : PositionEncoding) (edits : List TextEdit) (text : Str) : Str :=
  Lib.Splice.splice (advance encoding)
    (edits.map fun edit => ⟨edit.range.start, edit.range.stop, edit.newText⟩) ⟨0, 0⟩ text

end MarieRs.Lsp
