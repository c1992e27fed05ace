import MarieRs.Asm.Grammar
import MarieRs.Asm.Renaming
import MarieRs.Lib.Splice

namespace MarieRs.Asm

open Lib.Splice (Piece Edit editsOf walk)

/-- A reader that counts bytes. -/
def nextByte (offset : Nat) (c : Char) : Nat := offset + c.utf8Size

theorem walk_nextByte (offset : Nat) (s : Str) : walk nextByte offset s = offset + utf8Len s := by
  induction s generalizing offset with
  | nil => rfl
  | cons c s ih => rw [Lib.Splice.walk_cons, ih, nextByte, utf8Len_cons, Nat.add_assoc]

def replaced (old new name : Str) : Str := if name = old then new else name

def namePiece (old new name : Str) : Piece Char :=
  if name = old then .swap name new else .keep name

/-- The edit that puts a new name into a span. -/
def spanEdit (new : Str) (span : Span) : Edit Nat Char := ⟨span.start, span.stop, new⟩

theorem namePiece_before (old new name : Str) : (namePiece old new name).before = name := by
  rw [namePiece]
  split <;> rfl

theorem namePiece_after (old new name : Str) :
    (namePiece old new name).after = replaced old new name := by
  rw [namePiece, replaced]
  split <;> rfl

theorem namePiece_cases (old new name : Str) :
    (∃ text, namePiece old new name = .keep text) ∨ namePiece old new name = .swap old new := by
  rw [namePiece]
  split
  · rename_i hname
    exact .inr (by rw [hname])
  · exact .inl ⟨name, rfl⟩

namespace Parts

def labelPieces (old new : Str) (p : Parts) : List (Piece Char) :=
  match p.label with
  | none => []
  | some name => [namePiece old new name, .keep [',']]

def operandPieces (old new : Str) (p : Parts) : List (Piece Char) :=
  match p.body.operand with
  | none => []
  | some (gap, word) =>
    [.keep gap, if p.statement.looksUp then namePiece old new word else .keep word]

def pieces (old new : Str) (p : Parts) : List (Piece Char) :=
  .keep p.lead :: (p.labelPieces old new ++ (.keep p.body.gap :: .keep p.body.mnemonic ::
    (p.operandPieces old new ++ [.keep p.body.tail])))

theorem mem_pieces {old new : Str} {p : Parts} {piece : Piece Char}
    (h : piece ∈ p.pieces old new) : (∃ text, piece = .keep text) ∨ piece = .swap old new := by
  have hlabel : piece ∈ p.labelPieces old new →
      (∃ text, piece = .keep text) ∨ piece = .swap old new := by
    rw [labelPieces]
    cases p.label with
    | none => simp
    | some name =>
      intro hpiece
      rcases List.mem_cons.mp hpiece with rfl | hpiece
      · exact namePiece_cases old new name
      · exact .inl ⟨_, List.mem_singleton.mp hpiece⟩
  have hoperand : piece ∈ p.operandPieces old new →
      (∃ text, piece = .keep text) ∨ piece = .swap old new := by
    rw [operandPieces]
    cases p.body.operand with
    | none => simp
    | some found =>
      intro hpiece
      rcases List.mem_cons.mp hpiece with rfl | hpiece
      · exact .inl ⟨_, rfl⟩
      · rw [List.mem_singleton.mp hpiece]
        split
        · exact namePiece_cases old new found.2
        · exact .inl ⟨_, rfl⟩
  simp only [pieces, List.mem_cons, List.mem_append, List.not_mem_nil, or_false] at h
  rcases h with rfl | h | rfl | rfl | h | rfl
  · exact .inl ⟨_, rfl⟩
  · exact hlabel h
  · exact .inl ⟨_, rfl⟩
  · exact .inl ⟨_, rfl⟩
  · exact hoperand h
  · exact .inl ⟨_, rfl⟩

def rename (f : Str → Str) (p : Parts) : Parts :=
  { p with
    label := p.label.map f
    body.operand := if p.statement.looksUp then p.body.operand.map (Prod.map id f)
      else p.body.operand }

theorem labelPieces_before (old new : Str) (p : Parts) :
    (p.labelPieces old new).flatMap Piece.before = p.labelText := by
  rw [labelPieces, labelText]
  cases p.label with
  | none => rfl
  | some name => simp [namePiece_before]

theorem operandPieces_before (old new : Str) (p : Parts) :
    (p.operandPieces old new).flatMap Piece.before = p.body.operandText := by
  rw [operandPieces, Body.operandText]
  cases p.body.operand with
  | none => rfl
  | some found =>
    simp only [List.flatMap_cons]
    split <;> simp [namePiece_before]

theorem pieces_before (old new : Str) (p : Parts) :
    (p.pieces old new).flatMap Piece.before = p.text := by
  simp [pieces, text, Body.text, labelPieces_before, operandPieces_before]

theorem pieces_after (old new : Str) (p : Parts) :
    (p.pieces old new).flatMap Piece.after = (p.rename (replaced old new)).text := by
  have hlabel : (p.labelPieces old new).flatMap Piece.after =
      (p.rename (replaced old new)).labelText := by
    rw [labelPieces, labelText, rename]
    cases p.label with
    | none => rfl
    | some name => simp [namePiece_after]
  have hoperand : (p.operandPieces old new).flatMap Piece.after =
      (p.rename (replaced old new)).body.operandText := by
    rw [operandPieces, Body.operandText, rename]
    cases p.body.operand with
    | none => simp
    | some found =>
      simp only [List.flatMap_cons]
      split <;> simp [namePiece_after]
  simp only [pieces, text, Body.text, ← hlabel, ← hoperand, List.flatMap_cons,
    List.flatMap_append, List.flatMap_nil, List.append_nil, Piece.after_keep]
  rfl

theorem rename_statement (f : Str → Str) (p : Parts) :
    (p.rename f).statement = p.statement.rename f := by
  have hoperand : (p.rename f).body.operand.map Prod.snd =
      if p.statement.looksUp then p.statement.operand.map f else p.statement.operand := by
    have hstatement : p.statement.operand = p.body.operand.map Prod.snd := rfl
    simp only [rename, hstatement]
    split
    · rw [Option.map_map, Option.map_map]
      rfl
    · rfl
  rw [statement, hoperand]
  rfl

/-- What a function on names has to keep for a line to stay readable. -/
theorem Valid.rename {p : Parts} (h : p.Valid) {f : Str → Str}
    (hlabel : ∀ name, p.label = some name → f name ≠ [] ∧ (f name).all isLabelChar = true ∧
      ∀ c ∈ (f name).head?, isWhitespace c = false)
    (hoperand : ∀ word, p.statement.operand = some word → IsWord (f word)) :
    (p.rename f).Valid where
  lead := h.lead
  label := by
    intro name hname
    obtain ⟨name, hold, rfl⟩ := Option.map_eq_some_iff.mp hname
    exact hlabel name hold
  body :=
    { gap := h.body.gap
      mnemonic := h.body.mnemonic
      operand := by
        intro gap word hword
        simp only [Parts.rename] at hword
        split at hword
        · obtain ⟨⟨gap', word'⟩, hold, heq⟩ := Option.map_eq_some_iff.mp hword
          cases heq
          obtain ⟨hgap, hspace, -⟩ := h.body.operand gap' word' hold
          exact ⟨hgap, hspace, hoperand word' (by rw [statement, hold, Option.map_some])⟩
        · exact h.body.operand gap word hword
      tail := h.body.tail
      plain := by
        intro hnone
        refine h.body.plain ?_
        simp only [Parts.rename] at hnone
        split at hnone
        · exact Option.map_eq_none_iff.mp hnone
        · exact hnone }
  plain := fun hnone => h.plain (Option.map_eq_none_iff.mp hnone)

/-- The span of the label, if it is the one. -/
def labelSpans (base : Nat) (old : Str) (p : Parts) : List Span :=
  if p.label = some old then (p.labelRange.map (charSpan p.text base)).toList else []

def operandSpans (base : Nat) (old : Str) (p : Parts) : List Span :=
  if p.statement.looksUp ∧ p.statement.operand = some old then
    (p.operandRange.map (charSpan p.text base)).toList
  else []

theorem labelEdits (base : Nat) (old new : Str) (p : Parts) :
    editsOf nextByte (base + utf8Len p.lead) (p.labelPieces old new) =
      (p.labelSpans base old).map (spanEdit new) := by
  rw [labelPieces, labelSpans]
  cases hlabel : p.label with
  | none => rfl
  | some name =>
    by_cases hname : name = old
    · have htext : p.text = p.lead ++ (name ++ ([','] ++ p.body.text)) := by
        rw [text, labelText, hlabel]
        simp
      have hspan := charSpan_piece base htext rfl rfl
      rw [utf8Len_append, ← Nat.add_assoc] at hspan
      rw [if_pos (by rw [hname]), labelRange, hlabel]
      simp only [namePiece, if_pos hname, editsOf, walk_nextByte, Option.map_some,
        Option.toList_some, List.map_cons, List.map_nil, hspan, spanEdit]
    · simp [namePiece, hname, editsOf]

theorem operandEdits (base : Nat) (old new : Str) (p : Parts) :
    editsOf nextByte (base + utf8Len (p.lead ++ p.labelText ++ p.body.gap ++ p.body.mnemonic))
        (p.operandPieces old new) =
      (p.operandSpans base old).map (spanEdit new) := by
  rw [operandPieces, operandSpans]
  cases hoperand : p.body.operand with
  | none =>
    have hnone : p.statement.operand = none := by rw [statement, hoperand, Option.map_none]
    simp [hnone, editsOf]
  | some found =>
    obtain ⟨gap, word⟩ := found
    have hword : p.statement.operand = some word := by rw [statement, hoperand, Option.map_some]
    rw [hword]
    by_cases huses : p.statement.looksUp ∧ some word = some old
    · obtain ⟨htext, hrange⟩ := operand_split hoperand
      have hspan := charSpan_piece base htext rfl rfl
      rw [utf8Len_append, ← Nat.add_assoc] at hspan
      rw [if_pos huses, hrange]
      simp only [huses.1, namePiece, if_pos (Option.some.inj huses.2), if_true, editsOf,
        walk_nextByte, Option.map_some, Option.toList_some, List.map_cons, List.map_nil, hspan,
        spanEdit, utf8Len_append, Nat.add_assoc]
    · rw [if_neg huses]
      by_cases hlooks : p.statement.looksUp
      · have hname : word ≠ old := fun heq => huses ⟨hlooks, by rw [heq]⟩
        simp [hlooks, namePiece, hname, editsOf]
      · simp [hlooks, editsOf]

/-- The pieces of a line replace the label and the operand where they are the name. -/
theorem pieces_edits (base : Nat) (old new : Str) (p : Parts) :
    editsOf nextByte base (p.pieces old new) =
      (p.labelSpans base old ++ p.operandSpans base old).map (spanEdit new) := by
  have hoperand := p.operandEdits base old new
  simp only [utf8Len_append, Nat.add_assoc] at hoperand
  rw [List.map_append, ← labelEdits, ← hoperand]
  simp only [pieces, editsOf, Lib.Splice.editsOf_append, walk_nextByte, labelPieces_before,
    List.append_nil, Nat.add_assoc]

end Parts

end MarieRs.Asm
