import MarieRs.Lib.Backtracking
import MarieRs.Asm.Lexer

namespace MarieRs.Asm

open Lib.Backtracking Regex

/-! The three regular expressions of the module documentation, in their order,
with their groups named. -/

inductive Part where
  | label | keyword | digits | operator | operand | comment
  deriving DecidableEq

/-- `[^,/]` -/
def isLabelChar (c : Char) : Bool := c != ',' && c != '/'

/-- `[^\s,]` -/
def isWordChar (c : Char) : Bool := !isWhitespace c && c != ','

/-- A letter in either case. -/
def isLetter (letter c : Char) : Bool := c.toLower == letter

/-- `\s*(?:(?<comment>/.*))?$` -/
def tailRegex : Regex Char Part :=
  seq (star false (set isWhitespace))
    (seq (opt (group .comment (seq (set (· == '/')) (star false (set fun _ => true))))) stop)

/-- `^\s*(?:/.*)?$` -/
def blankRegex : Regex Char Part := seq start tailRegex

/-- `^\s*org\s+([0-9a-f]{3})\s*(?:/.*)?$` -/
def originRegex : Regex Char Part :=
  seq start
    (seq (star false (set isWhitespace))
      (seq (group .keyword (word [isLetter 'o', isLetter 'r', isLetter 'g']))
        (seq (plus false (set isWhitespace))
          (seq (group .digits (word [isAsciiHexdigit, isAsciiHexdigit, isAsciiHexdigit]))
            tailRegex))))

/-- `(?<label>[^,/]+),` -/
def labelRegex : Regex Char Part :=
  seq (group .label (plus false (set isLabelChar))) (set (· == ','))

/-- `\s+(?<operand>[^\s,]+?)` -/
def operandRegex : Regex Char Part :=
  seq (plus false (set isWhitespace)) (group .operand (plus true (set isWordChar)))

/-- `\s*(?<operator>[^\s,]+?)(?:\s+(?<operand>[^\s,]+?))?\s*(?:/.*)?$` -/
def bodyRegex : Regex Char Part :=
  seq (star false (set isWhitespace))
    (seq (group .operator (plus true (set isWordChar))) (seq (opt operandRegex) tailRegex))

/-- `^\s*(?:(?<label>[^,/]+),)?` and the body. -/
def statementRegex : Regex Char Part :=
  seq start (seq (star false (set isWhitespace)) (seq (opt labelRegex) bodyRegex))

section Form
variable (text : Str) (base : Nat)

/-- A range of characters as a span of bytes. -/
def charSpan (range : Nat × Nat) : Span :=
  ⟨base + utf8Len (text.take range.1), base + utf8Len (text.take range.2)⟩

def captured (captures : List (Part × Nat × Nat)) (part : Part) : Option Span :=
  (captures.lookup part).map (charSpan text base)

def blankForm (captures : List (Part × Nat × Nat)) : LineForm :=
  .blank (captured text base captures .comment)

/-- Groups outside every option take part in every match. -/
def always (captures : List (Part × Nat × Nat)) (part : Part) : Span :=
  (captured text base captures part).getD (.empty base)

def originForm (captures : List (Part × Nat × Nat)) : LineForm :=
  .origin (always text base captures .keyword) (always text base captures .digits)
    (captured text base captures .comment)

def statementForm (captures : List (Part × Nat × Nat)) : LineForm :=
  .statement (captured text base captures .label) (always text base captures .operator)
    (captured text base captures .operand) (captured text base captures .comment)

/-- What the original does with a line. -/
def recognise : LineForm :=
  match exec blankRegex text with
  | some m => blankForm text base m.captures
  | none =>
    match exec originRegex text with
    | some m => originForm text base m.captures
    | none =>
      match exec statementRegex text with
      | some m => statementForm text base m.captures
      | none => .malformed

end Form

namespace Cursor

variable (text : Str) (base : Nat)

@[simp] theorem new_len : (Cursor.new text base).len = text.length := by
  simp [len, new]

@[simp] theorem new_at (i : Nat) : (Cursor.new text base).at_ i = text[i]? := by
  simp [at_, new, charIndices_get, Function.comp_def]

theorem new_byteAt (i : Nat) : (Cursor.new text base).byteAt i = utf8Len (text.take i) := by
  simp only [byteAt, new, charIndices_get]
  cases hi : text[i]? with
  | none => simp [List.take_of_length_le (List.getElem?_eq_none_iff.mp hi)]
  | some c => rfl

@[simp] theorem new_span (i j : Nat) :
    (Cursor.new text base).span i j = charSpan text base (i, j) := by
  simp only [span, offset, new_byteAt]
  rfl

theorem new_takeWhile (p : Char → Bool) (i : Nat) :
    (((Cursor.new text base).chars.drop i).takeWhile (fun c => p c.2)).length =
      runLength p text i := by
  have hmap : (charIndices text).map Prod.snd = text := by
    apply List.ext_getElem?
    intro j
    simp [charIndices_get, Function.comp_def]
  have hdrop : ((charIndices text).drop i).map Prod.snd = text.drop i := by
    rw [List.map_drop, hmap]
  rw [runLength, ← hdrop, List.takeWhile_map, List.length_map]
  rfl

@[simp] theorem new_skipWhitespace (i : Nat) :
    (Cursor.new text base).skipWhitespace i = i + runLength isWhitespace text i := by
  rw [skipWhitespace, new_takeWhile text base isWhitespace i]

theorem new_text {i j : Nat} (hij : i ≤ j) :
    (Cursor.new text base).text i j = (text.drop i).take (j - i) := by
  have htake : text.take j = text.take i ++ (text.drop i).take (j - i) := by
    rw [← List.take_add, Nat.add_sub_cancel' hij]
  have hsplit : text = text.take i ++ (text.drop i).take (j - i) ++ text.drop j := by
    rw [← htake, List.take_append_drop]
  have hslice := sliceBytes_append (text.take i) ((text.drop i).take (j - i)) (text.drop j)
  rw [← hsplit, ← utf8Len_append, ← htake] at hslice
  rw [Cursor.text, new_byteAt, new_byteAt]
  change (sliceBytes text _ _).getD [] = _
  rw [hslice]
  rfl

end Cursor

end MarieRs.Asm
