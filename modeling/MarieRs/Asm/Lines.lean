import MarieRs.Asm.Splitter
import MarieRs.Asm.Parser

namespace MarieRs.Asm

open Lib.Backtracking

/-- The form of a line, with ranges of its characters for spans. -/
inductive Ranges where
  | blank (comment : Option (Nat × Nat))
  | origin (keyword digits : Nat × Nat) (comment : Option (Nat × Nat))
  | statement (label : Option (Nat × Nat)) (mnemonic : Nat × Nat)
      (operand comment : Option (Nat × Nat))
  | malformed

def Ranges.form (text : Str) (base : Nat) : Ranges → LineForm
  | .blank comment => .blank (comment.map (charSpan text base))
  | .origin keyword digits comment =>
    .origin (charSpan text base keyword) (charSpan text base digits)
      (comment.map (charSpan text base))
  | .statement label mnemonic operand comment =>
    .statement (label.map (charSpan text base)) (charSpan text base mnemonic)
      (operand.map (charSpan text base)) (comment.map (charSpan text base))
  | .malformed => .malformed

/-- A range of characters of `text`. -/
def Within (text : Str) (range : Nat × Nat) : Prop :=
  range.1 ≤ range.2 ∧ range.2 ≤ text.length

/-- All the ranges that matter to the assembler lie in the line. -/
def Ranges.Ordered (text : Str) : Ranges → Prop
  | .origin keyword digits _ => Within text keyword ∧ Within text digits
  | .statement label mnemonic operand _ =>
    (∀ range ∈ label, Within text range) ∧ Within text mnemonic ∧
      ∀ range ∈ operand, Within text range
  | _ => True

theorem lookup_within {text : Str} {r : Regex Char Part} {m : Match Part}
    (h : exec r text = some m) (part : Part) :
    ∀ range ∈ m.captures.lookup part, Within text range := by
  intro range hrange
  obtain ⟨before, after, heq, -⟩ := List.lookup_eq_some_iff.mp hrange
  have hmem : (part, range) ∈ m.captures := by simp [heq]
  exact exec_captures h hmem

theorem always_within {text : Str} {r : Regex Char Part} {m : Match Part}
    (h : exec r text = some m) (part : Part) :
    Within text ((m.captures.lookup part).getD (0, 0)) := by
  cases hrange : m.captures.lookup part with
  | none => exact ⟨le_rfl, Nat.zero_le _⟩
  | some range => exact lookup_within h part range hrange

theorem always_eq (text : Str) (base : Nat) (captures : List (Part × Nat × Nat)) (part : Part) :
    always text base captures part =
      charSpan text base ((captures.lookup part).getD (0, 0)) := by
  simp only [always, captured]
  cases captures.lookup part <;> simp [charSpan, Span.empty]

/-- One set of ranges gives the form of the line at every place it can have. -/
theorem splitLine_ranges (text : Str) :
    ∃ ranges : Ranges, ranges.Ordered text ∧
      ∀ base, splitLine text base = ranges.form text base := by
  have hsplit : ∀ base, splitLine text base =
      ((exec blankRegex text).map fun m => blankForm text base m.captures).elim
        (((exec originRegex text).map fun m => originForm text base m.captures).elim
          (((exec statementRegex text).map fun m =>
            statementForm text base m.captures).getD .malformed) id) id := fun base => by
    rw [exec_blank, exec_origin, exec_statement, splitLine]
    cases (Cursor.new text base).blank with
    | some form => rfl
    | none =>
      cases (Cursor.new text base).origin with
      | some form => rfl
      | none => rfl
  cases hblank : exec blankRegex text with
  | some m =>
    exact ⟨.blank (m.captures.lookup .comment), trivial, fun base => by
      rw [hsplit, hblank]
      rfl⟩
  | none =>
    cases horigin : exec originRegex text with
    | some m =>
      refine ⟨.origin ((m.captures.lookup .keyword).getD (0, 0))
          ((m.captures.lookup .digits).getD (0, 0)) (m.captures.lookup .comment),
        ⟨always_within horigin _, always_within horigin _⟩, fun base => ?_⟩
      rw [hsplit, hblank, horigin]
      simp only [Option.map_none, Option.map_some, originForm, always_eq]
      rfl
    | none =>
      cases hstatement : exec statementRegex text with
      | some m =>
        refine ⟨.statement (m.captures.lookup .label)
            ((m.captures.lookup .operator).getD (0, 0)) (m.captures.lookup .operand)
            (m.captures.lookup .comment),
          ⟨lookup_within hstatement _, always_within hstatement _, lookup_within hstatement _⟩,
          fun base => ?_⟩
        rw [hsplit, hblank, horigin, hstatement]
        simp only [Option.map_none, Option.map_some, Option.getD_some, statementForm, always_eq]
        rfl
      | none =>
        exact ⟨.malformed, trivial, fun base => by
          rw [hsplit, hblank, horigin, hstatement]
          rfl⟩

/-- The text of the lines before a line, newlines included. -/
def joined (lines : List Str) : Str := lines.flatMap (· ++ ['\n'])

theorem joined_cons (first : Str) (rest : List Str) :
    joined (first :: rest) = first ++ '\n' :: joined rest := by
  simp [joined]

theorem intercalate_cons (first next : Str) (rest : List Str) :
    List.intercalate ['\n'] (first :: next :: rest) =
      first ++ '\n' :: List.intercalate ['\n'] (next :: rest) := by
  simp [List.intercalate]

theorem intercalate_last (before : List Str) (text : Str) :
    List.intercalate ['\n'] (before ++ [text]) = joined before ++ text := by
  induction before with
  | nil => simp [joined, List.intercalate]
  | cons first before ih =>
    obtain ⟨next, rest, hnext⟩ : ∃ next rest, before ++ [text] = next :: rest :=
      List.exists_cons_of_ne_nil (by simp)
    rw [List.cons_append, hnext, intercalate_cons, ← hnext, ih, joined_cons]
    simp

theorem splitOn_line {s line : Str} (h : line ∈ s.splitOn '\n') : '\n' ∉ line := by
  induction s generalizing line with
  | nil => simp_all
  | cons c s ih =>
    rw [List.splitOn_cons_eq_if_modifyHead] at h
    split at h
    · rcases List.mem_cons.mp h with rfl | h
      · simp
      · exact ih h
    · rename_i hc
      cases hsplit : s.splitOn '\n' with
      | nil => simp [hsplit] at h
      | cons first rest =>
        rw [hsplit, List.modifyHead_cons] at h
        rcases List.mem_cons.mp h with rfl | h
        · have hfirst := ih (by rw [hsplit]; exact List.mem_cons_self)
          rw [List.mem_cons, not_or]
          exact ⟨fun heq => hc (by simp [← heq]), hfirst⟩
        · exact ih (by rw [hsplit]; exact List.mem_cons_of_mem _ h)

/-- Lines that each end in a newline, and one more that does not, are the lines of their text. -/
theorem splitOn_joined {lines : List Str} {text : Str} (hlines : ∀ line ∈ lines, '\n' ∉ line)
    (htext : '\n' ∉ text) : (joined lines ++ text).splitOn '\n' = lines ++ [text] := by
  rw [← intercalate_last]
  refine List.splitOn_intercalate '\n' ?_ (by simp)
  intro line hline
  rcases List.mem_append.mp hline with hline | hline
  · exact hlines line hline
  · rw [List.mem_singleton.mp hline]
    exact htext

theorem joined_take_succ {lines : List Str} {number : Nat} {text : Str}
    (h : lines[number]? = some text) :
    utf8Len (joined (lines.take (number + 1))) =
      utf8Len (joined (lines.take number)) + utf8Len text + 1 := by
  rw [List.take_add_one, h]
  have hnewline : utf8Len ['\n'] = 1 := by decide
  simp [joined, utf8Len_append, hnewline, ← Nat.add_assoc]

/-- The line `text` is line `number` of `source`, and starts at byte `base`. -/
structure AtLine (source text : Str) (number base : Nat) : Prop where
  line : (source.splitOn '\n')[number]? = some text
  base : base = utf8Len (joined ((source.splitOn '\n').take number))

/-- What stands around a line does not depend on the line. -/
theorem intercalate_split (before after : List Str) :
    ∃ rest, ∀ text, List.intercalate ['\n'] (before ++ text :: after) =
      joined before ++ text ++ rest := by
  induction before with
  | nil =>
    cases after with
    | nil => exact ⟨[], fun text => by simp [joined, List.intercalate]⟩
    | cons next after =>
      exact ⟨'\n' :: List.intercalate ['\n'] (next :: after), fun text => by
        simp [joined, List.intercalate]⟩
  | cons first before ih =>
    obtain ⟨rest, hrest⟩ := ih
    refine ⟨rest, fun text => ?_⟩
    have htext := hrest text
    cases before <;> simp_all [joined, List.intercalate]

/-- A line sits between what comes before it and the rest. -/
theorem AtLine.split {source text : Str} {number base : Nat} (h : AtLine source text number base) :
    ∃ rest, source = joined ((source.splitOn '\n').take number) ++ text ++ rest := by
  obtain ⟨hlt, htext⟩ := List.getElem?_eq_some_iff.mp h.line
  have hlines : (source.splitOn '\n').take number ++
      text :: (source.splitOn '\n').drop (number + 1) = source.splitOn '\n' := by
    rw [← htext, List.getElem_cons_drop, List.take_append_drop]
  obtain ⟨rest, hrest⟩ := intercalate_split ((source.splitOn '\n').take number)
    ((source.splitOn '\n').drop (number + 1))
  refine ⟨rest, ?_⟩
  rw [← hrest text, hlines, List.intercalate_splitOn]

/-- The text of a range of characters. -/
def slice (text : Str) (range : Nat × Nat) : Str := (text.drop range.1).take (range.2 - range.1)

theorem slice_split {text : Str} {range : Nat × Nat} (h : Within text range) :
    text = text.take range.1 ++ slice text range ++ text.drop range.2 := by
  have htake : text.take range.2 = text.take range.1 ++ slice text range := by
    rw [slice, ← List.take_add, Nat.add_sub_cancel' h.1]
  rw [← htake, List.take_append_drop]

/-- A range of a line told by what is before, in and after it. -/
theorem charSpan_piece {text before piece after : Str} (base : Nat)
    (htext : text = before ++ (piece ++ after)) {start stop : Nat} (hstart : start = before.length)
    (hstop : stop = before.length + piece.length) :
    charSpan text base (start, stop) =
      ⟨base + utf8Len before, base + utf8Len (before ++ piece)⟩ := by
  subst htext hstart hstop
  have htake : (before ++ (piece ++ after)).take (before.length + piece.length) =
      before ++ piece := by
    rw [← List.append_assoc]
    exact List.take_left' (by simp)
  simp only [charSpan, List.take_left', htake]

/-- A span of a line reads the same characters in the source. -/
theorem AtLine.text_charSpan {source text : Str} {number base : Nat}
    (h : AtLine source text number base) {range : Nat × Nat} (hrange : Within text range) :
    (charSpan text base range).text source = some (slice text range) := by
  obtain ⟨rest, hrest⟩ := h.split
  have hsplit := slice_split hrange
  have htake : text.take range.2 = text.take range.1 ++ slice text range := by
    rw [slice, ← List.take_add, Nat.add_sub_cancel' hrange.1]
  have hsource : source = (joined ((source.splitOn '\n').take number) ++ text.take range.1) ++
      slice text range ++ (text.drop range.2 ++ rest) := by
    conv_lhs => rw [hrest, hsplit]
    simp only [List.append_assoc]
  have hslice := sliceBytes_append
    (joined ((source.splitOn '\n').take number) ++ text.take range.1) (slice text range)
    (text.drop range.2 ++ rest)
  rw [← hsource, utf8Len_append, ← h.base] at hslice
  simp only [Span.text, charSpan, htake, utf8Len_append]
  rw [← Nat.add_assoc, hslice]

theorem AtLine.textOf {source text : Str} {number base : Nat} (h : AtLine source text number base)
    {range : Nat × Nat} (hrange : Within text range) :
    Asm.textOf source (charSpan text base range) = slice text range := by
  rw [Asm.textOf, h.text_charSpan hrange, Option.getD_some]

/-- A statement line. -/
structure Statement where
  label : Option Str
  mnemonic : Str
  operand : Option Str
  deriving DecidableEq

/-- The statement that the ranges of a statement line spell. -/
def statementOf (text : Str) (label : Option (Nat × Nat)) (mnemonic : Nat × Nat)
    (operand : Option (Nat × Nat)) : Statement :=
  ⟨label.map (slice text), slice text mnemonic, operand.map (slice text)⟩

inductive Shape where
  | blank
  | origin (digits : Str)
  | statement (s : Statement)
  | malformed
  deriving DecidableEq

def shapeOf (text : Str) : Shape :=
  match splitLine text 0 with
  | .blank _ => .blank
  | .origin _ digits _ => .origin (textOf text digits)
  | .statement label mnemonic operand _ =>
    .statement ⟨label.map (textOf text), textOf text mnemonic, operand.map (textOf text)⟩
  | .malformed => .malformed

def Ranges.shape (text : Str) : Ranges → Shape
  | .blank _ => .blank
  | .origin _ digits _ => .origin (slice text digits)
  | .statement label mnemonic operand _ => .statement (statementOf text label mnemonic operand)
  | .malformed => .malformed

theorem textOf_charSpan {text : Str} {range : Nat × Nat} (h : Within text range) :
    textOf text (charSpan text 0 range) = slice text range := by
  have htake : text.take range.2 = text.take range.1 ++ slice text range := by
    rw [slice, ← List.take_add, Nat.add_sub_cancel' h.1]
  have hslice := sliceBytes_append (text.take range.1) (slice text range) (text.drop range.2)
  rw [← slice_split h] at hslice
  simp only [Asm.textOf, Span.text, charSpan, Nat.zero_add, htake, utf8Len_append]
  rw [hslice, Option.getD_some]

theorem map_textOf {text : Str} {range : Option (Nat × Nat)}
    (h : ∀ r ∈ range, Within text r) :
    (range.map (charSpan text 0)).map (textOf text) = range.map (slice text) := by
  cases range with
  | none => rfl
  | some r =>
    rw [Option.map_some, Option.map_some, Option.map_some, textOf_charSpan (h r rfl)]

theorem shapeOf_ranges {text : Str} {ranges : Ranges} (hordered : ranges.Ordered text)
    (hform : splitLine text 0 = ranges.form text 0) : shapeOf text = ranges.shape text := by
  rw [shapeOf, hform]
  cases ranges with
  | blank => rfl
  | malformed => rfl
  | origin keyword digits comment =>
    simp only [Ranges.form, Ranges.shape]
    rw [textOf_charSpan hordered.2]
  | statement label mnemonic operand comment =>
    obtain ⟨hlabel, hmnemonic, hoperand⟩ := hordered
    simp only [Ranges.form, Ranges.shape, statementOf]
    rw [map_textOf hlabel, textOf_charSpan hmnemonic, map_textOf hoperand]

end MarieRs.Asm
