import MarieRs.Asm.Span
import MarieRs.Core.Instruction

namespace MarieRs.Asm

/-- How a single source line was recognised. -/
inductive LineForm where
  | blank (comment : Option Span)
  | origin (keyword digits : Span) (comment : Option Span)
  | statement (label : Option Span) (mnemonic : Span) (operand comment : Option Span)
  | malformed
  deriving DecidableEq, Repr

/-- A line, indexed by character. -/
structure Cursor where
  chars : List (Nat × Char)
  base : Nat
  length : Nat
  line : Str

namespace Cursor

def new (line : Str) (base : Nat) : Cursor where
  chars := charIndices line
  base := base
  length := utf8Len line
  line := line

def len (c : Cursor) : Nat := c.chars.length

def at_ (c : Cursor) (i : Nat) : Option Char := (c.chars[i]?).map Prod.snd

/-- Byte offset of a character within the line; past the last one, its length. -/
def byteAt (c : Cursor) (i : Nat) : Nat :=
  match c.chars[i]? with
  | some (offset, _) => offset
  | none => c.length

def offset (c : Cursor) (i : Nat) : Nat := c.base + c.byteAt i

def span (c : Cursor) (start stop : Nat) : Span := .new (c.offset start) (c.offset stop)

/-- Cursors only ever cut at character boundaries, in order. -/
def text (c : Cursor) (start stop : Nat) : Str :=
  (sliceBytes c.line (c.byteAt start) (c.byteAt stop)).getD []

/-- Implements `\s*`: the loop moves on while it sees whitespace. -/
def skipWhitespace (c : Cursor) (i : Nat) : Nat :=
  i + ((c.chars.drop i).takeWhile (fun p => isWhitespace p.2)).length

/-- `^\s*(?:/.*)?$` -/
def blank (c : Cursor) : Option LineForm :=
  let i := c.skipWhitespace 0
  match c.at_ i with
  | none => some (.blank none)
  | some '/' => some (.blank (some (c.span i c.len)))
  | some _ => none

/-- `\s*(?:/.*)?$`: the outer option says whether it matched, the inner one
whether there was a comment. -/
def tail (c : Cursor) (start : Nat) : Option (Option Span) :=
  let i := c.skipWhitespace start
  match c.at_ i with
  | none => some none
  | some '/' => some (some (c.span i c.len))
  | some _ => none

/-- `^\s*org\s+([0-9a-f]{3})\s*(?:/.*)?$`, case-insensitively. -/
def origin (c : Cursor) : Option LineForm :=
  let start := c.skipWhitespace 0
  let keywordEnd := start + 3
  if keywordEnd > c.len ∨ ¬ eqIgnoreAsciiCase (c.text start keywordEnd) "org".toList then none
  else if ¬ (c.at_ keywordEnd).any isWhitespace then none
  else
    let digitsStart := c.skipWhitespace keywordEnd
    let digitsEnd := digitsStart + 3
    if digitsEnd > c.len then none
    else if ¬ (c.text digitsStart digitsEnd).all isAsciiHexdigit then none
    else
      match c.tail digitsEnd with
      | none => none
      | some comment =>
        some (.origin (c.span start keywordEnd) (c.span digitsStart digitsEnd) comment)

/-- The lazy loop over the ends of an operand. Every end lies in the line, so
there is always a character before it. -/
def operandLoop (c : Cursor) (operandStart : Nat) :
    List Nat → Option (Option Span × Option Span)
  | [] => none
  | stop :: rest =>
    match c.at_ (stop - 1) with
    | none => none
    | some ch =>
      if isWhitespace ch || ch == ',' then none
      else
        match c.tail stop with
        | some comment => some (some (c.span operandStart stop), comment)
        | none => operandLoop c operandStart rest

/-- The optional operand group, then the tail. -/
def afterMnemonic (c : Cursor) (start : Nat) : Option (Option Span × Option Span) :=
  let operand :=
    if (c.at_ start).any isWhitespace then
      let operandStart := c.skipWhitespace start
      c.operandLoop operandStart (List.range' (operandStart + 1) (c.len - operandStart))
    else none
  match operand with
  | some found => some found
  | none => (c.tail start).map (fun comment => (none, comment))

/-- The lazy loop over the ends of an operator. -/
def mnemonicLoop (c : Cursor) (label : Option Span) (mnemonicStart : Nat) :
    List Nat → Option LineForm
  | [] => none
  | stop :: rest =>
    match c.at_ (stop - 1) with
    | none => none
    | some ch =>
      if isWhitespace ch || ch == ',' then none
      else
        match c.afterMnemonic stop with
        | some (operand, comment) =>
          some (.statement label (c.span mnemonicStart stop) operand comment)
        | none => mnemonicLoop c label mnemonicStart rest

/-- `\s*(?<operator>[^\s,]+?)(?:\s+(?<operand>[^\s,]+?))?\s*(?:/.*)?$` -/
def body (c : Cursor) (start : Nat) (label : Option Span) : Option LineForm :=
  let mnemonicStart := c.skipWhitespace start
  c.mnemonicLoop label mnemonicStart (List.range' (mnemonicStart + 1) (c.len - mnemonicStart))

/-- `(?<label>[^,/]+),` at a character index. -/
def withLabel (c : Cursor) (start : Nat) : Option LineForm :=
  let i := start + ((c.chars.drop start).takeWhile (fun p => p.2 != ',' && p.2 != '/')).length
  if c.at_ i ≠ some ',' ∨ i = start then none
  else c.body (i + 1) (some (c.span start i))

/-- The loop over the leading whitespace taken. -/
def statementLoop (c : Cursor) (leading : Nat) : List Nat → Option LineForm
  | [] => none
  | taken :: rest =>
    match c.withLabel taken with
    | some form => some form
    | none =>
      match if taken = leading then c.body leading none else none with
      | some form => some form
      | none => statementLoop c leading rest

/-- The general statement form, in the original's backtracking order. -/
def statement (c : Cursor) : Option LineForm :=
  let leading := c.skipWhitespace 0
  c.statementLoop leading (List.range (leading + 1)).reverse

end Cursor

/-- Recognises one line, whose first byte sits at `base` in the whole source. -/
def splitLine (line : Str) (base : Nat) : LineForm :=
  let cursor := Cursor.new line base
  match cursor.blank with
  | some form => form
  | none =>
    match cursor.origin with
    | some form => form
    | none => cursor.statement.getD .malformed

end MarieRs.Asm
