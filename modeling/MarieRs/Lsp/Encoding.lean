import MarieRs.Asm.Span

namespace MarieRs.Lsp

open Asm (Span LineIndex)

/-- `char::len_utf16` -/
def utf16Size (c : Char) : Nat := if c.toNat < 0x10000 then 1 else 2

/-- How a client counts columns. -/
inductive PositionEncoding where
  | utf8 | utf16 | utf32
  deriving DecidableEq, Repr

namespace PositionEncoding

/-- The width of one character. -/
def width : PositionEncoding → Char → Nat
  | .utf8, c => c.utf8Size
  | .utf16, c => utf16Size c
  | .utf32, _ => 1

/-- Measures `text` in code units. -/
def measure : PositionEncoding → Str → Nat
  | .utf8, text => utf8Len text
  | .utf16, text => (text.map utf16Size).sum
  | .utf32, text => text.length

theorem width_pos (encoding : PositionEncoding) (c : Char) : 0 < encoding.width c := by
  cases encoding with
  | utf8 => exact c.utf8Size_pos
  | utf16 =>
    simp only [width, utf16Size]
    split <;> decide
  | utf32 => exact Nat.one_pos

@[simp] theorem measure_nil (encoding : PositionEncoding) : encoding.measure [] = 0 := by
  cases encoding <;> rfl

theorem measure_append_singleton (encoding : PositionEncoding) (text : Str) (c : Char) :
    encoding.measure (text ++ [c]) = encoding.measure text + encoding.width c := by
  cases encoding <;> simp [measure, width]

end PositionEncoding

/-- A line and a column, in the order of the text. -/
structure Position where
  line : Nat
  character : Nat
  deriving DecidableEq, Repr

instance : LinearOrder Position :=
  LinearOrder.lift' (fun p => toLex (p.line, p.character)) fun p q h => by
    obtain ⟨hline, hcharacter⟩ := Prod.mk.inj (toLex.injective h)
    cases p
    cases q
    simp_all

structure Range where
  start : Position
  stop : Position
  deriving DecidableEq

/-- Converts between spans and a client's positions. -/
structure Positions where
  source : Str
  lines : LineIndex
  encoding : PositionEncoding

namespace Positions

/-- A byte offset as a position. -/
def position (p : Positions) (offset : Nat) : Position :=
  let line := p.lines.lineOf offset
  let start := (p.lines.lineStart line).getD 0
  ⟨line, p.encoding.measure ((sliceBytes p.source start offset).getD [])⟩

/-- The byte at which a column is reached, if it is within the line. -/
def column (encoding : PositionEncoding) (character : Nat) : Nat → Nat → Str → Option Nat
  | _, _, [] => none
  | units, byte, c :: rest =>
    if units ≥ character then some byte
    else column encoding character (units + encoding.width c) (byte + c.utf8Size) rest

/-- A position as a byte offset; a column past the end of the line is its end. -/
def offset (p : Positions) (position : Position) : Option Nat :=
  match p.lines.lineStart position.line, p.lines.lineEnd position.line with
  | some start, some stop =>
    (sliceBytes p.source start stop).map fun text =>
      match column p.encoding position.character 0 0 text with
      | some byte => start + byte
      | none => stop
  | _, _ => none

/-- A position past the last line is the end of the document. -/
def offsetClamped (p : Positions) (position : Position) : Nat :=
  match p.offset position with
  | some offset => offset
  | none => if position.line ≥ p.lines.lineCount then utf8Len p.source else 0

def spanClamped (p : Positions) (range : Range) : Span :=
  let start := p.offsetClamped range.start
  let stop := p.offsetClamped range.stop
  .new (min start stop) (max start stop)

def range (p : Positions) (span : Span) : Range := ⟨p.position span.start, p.position span.stop⟩

/-- The length of a span, for semantic tokens. -/
def length (p : Positions) (span : Span) : Nat :=
  p.encoding.measure ((span.text p.source).getD [])

end Positions

end MarieRs.Lsp
