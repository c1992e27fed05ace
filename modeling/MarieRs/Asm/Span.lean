import MarieRs.Core.Text

namespace MarieRs.Asm

/-- A half-open range of byte offsets. The source keeps them in `u32`, which
bounds the texts it can index at 4 GiB. -/
structure Span where
  start : Nat
  stop : Nat
  deriving DecidableEq, Repr

namespace Span

def new (start stop : Nat) : Span := ⟨start, stop⟩

def empty (offset : Nat) : Span := ⟨offset, offset⟩

/-- The end is included, so a caret just after a token still resolves to it. -/
def touches (span : Span) (offset : Nat) : Bool :=
  decide (offset ≥ span.start) && decide (offset ≤ span.stop)

def join (span other : Span) : Span := ⟨min span.start other.start, max span.stop other.stop⟩

def text (span : Span) (source : Str) : Option Str := sliceBytes source span.start span.stop

end Span

/-- A zero-based line and a column in bytes. -/
structure Position where
  line : Nat
  column : Nat
  deriving DecidableEq, Repr

/-- Maps byte offsets to positions and back. -/
structure LineIndex where
  lineStarts : List Nat
  length : Nat
  deriving DecidableEq, Repr

namespace LineIndex

/-- Offsets just past each newline, counting bytes from `offset`. -/
def startsFrom : Nat → Str → List Nat
  | _, [] => []
  | offset, c :: s =>
    if c = '\n' then (offset + 1) :: startsFrom (offset + 1) s
    else startsFrom (offset + c.utf8Size) s

def new (source : Str) : LineIndex where
  lineStarts := 0 :: startsFrom 0 source
  length := utf8Len source

def lineCount (index : LineIndex) : Nat := index.lineStarts.length

def lineStart (index : LineIndex) (line : Nat) : Option Nat := index.lineStarts[line]?

/-- `binary_search` finds the offset among the sorted starts, or how many of them
come before it. -/
def lineOf (index : LineIndex) (offset : Nat) : Nat :=
  match index.lineStarts.idxOf? offset with
  | some line => line
  | none => (index.lineStarts.takeWhile (· < offset)).length - 1

/-- Every line that `lineOf` finds has a start. -/
def position (index : LineIndex) (offset : Nat) : Position :=
  let line := index.lineOf offset
  ⟨line, offset - (index.lineStarts[line]?).getD 0⟩

def lineEnd (index : LineIndex) (line : Nat) : Option Nat :=
  if line ≥ index.lineCount then none
  else
    match index.lineStarts[line + 1]? with
    | some next => some (next - 1)
    | none => some index.length

end LineIndex

end MarieRs.Asm
