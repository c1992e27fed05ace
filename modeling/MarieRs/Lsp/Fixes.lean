import MarieRs.Asm.Casing
import MarieRs.Asm.Meaning
import MarieRs.Asm.Occurrences
import MarieRs.Lsp.Actions
import MarieRs.Lsp.Offsets

namespace MarieRs.Lsp

open Asm (Code Span Alike Recased MnemonicKind)
open Lib.Splice (Piece)
open Lint (Linter NON_CANONICAL_MNEMONIC canonical)

/-- A client that applies a single edit puts its text in the place of what it covers. -/
theorem applyEdits_one (encoding : PositionEncoding) {front piece back : Str} (hpiece : piece ≠ [])
    (new : Str) :
    applyEdits encoding
        [⟨(positionsOf (front ++ (piece ++ back)) encoding).range
          ⟨utf8Len front, utf8Len front + utf8Len piece⟩, new⟩] (front ++ (piece ++ back)) =
      front ++ (new ++ back) := by
  have hstart := position_walk encoding front (piece ++ back)
  have hstop := position_walk encoding (front ++ piece) back
  rw [List.append_assoc, utf8Len_append, Lib.Splice.walk_append] at hstop
  have hproper : ∀ p ∈ [Piece.keep front, .swap piece new, .keep back], p.Proper := by
    simp [Piece.Proper, hpiece]
  have hsplice := Lib.Splice.splice_pieces (advance_lt encoding) hproper ⟨0, 0⟩ (.refl _)
  simp only [Lib.Splice.editsOf, List.flatMap_cons, List.flatMap_nil, List.append_nil,
    Piece.before, Piece.after] at hsplice
  rw [applyEdits, List.map_singleton, Positions.range, positionsOf]
  simp only [hstart, hstop]
  exact hsplice

namespace LintedDocument

variable {text : Str} {linter : Linter}

@[simp] theorem new_text : (new text linter).text = text := rfl

@[simp] theorem new_assembly : (new text linter).assembly = Asm.assemble text :=
  linter.check_assembly text

theorem new_positions (encoding : PositionEncoding) :
    (new text linter).positions encoding = positionsOf text encoding := by
  rw [Document.positions, new_assembly]
  rfl

end LintedDocument

variable {text : Str} {linter : Linter} {uri : Uri} {range : Range} {encoding : PositionEncoding}
  {finding : Asm.Diagnostic} {action : CodeAction}

/-- A fix that is offered replaces one span of the text. -/
theorem Offered.apply (h : Offered (.new text linter) uri range encoding finding action) :
    ∃ f, fix (.new text linter) finding.code finding.span = some f ∧
      ∀ front piece back, text = front ++ (piece ++ back) → piece ≠ [] →
        f.span = ⟨utf8Len front, utf8Len front + utf8Len piece⟩ →
          action.edit.apply uri encoding text = front ++ (f.replacement ++ back) := by
  obtain ⟨index, -, haction⟩ := h.made
  obtain ⟨f, hfix, rfl⟩ := Option.map_eq_some_iff.mp haction
  refine ⟨f, hfix, fun front piece back htext hpiece hspan => ?_⟩
  rw [LintedDocument.new_positions, hspan, htext]
  simp only [Lsp.action, WorkspaceEdit.apply, List.lookup_cons_self, Option.getD_some]
  exact applyEdits_one encoding hpiece f.replacement

theorem lower_canonical {mnemonic : Str} {spelling : String}
    (h : canonical (Asm.classify (toAsciiLowercase mnemonic)) = some spelling) :
    toAsciiLowercase spelling.toList = toAsciiLowercase mnemonic := by
  cases hkind : Asm.classify (toAsciiLowercase mnemonic) with
  | unknown =>
    rw [hkind] at h
    cases h
  | opcode opcode =>
    rw [hkind] at h
    cases h
    exact (Asm.classify_opcode hkind).symm
  | directive directive =>
    rw [hkind] at h
    cases h
    exact (Asm.fromMnemonic_spelling (Asm.classify_directive hkind)).symm

/-- The fix spells a mnemonic of the program in other letter case. -/
theorem Offered.recased (h : Offered (.new text linter) uri range encoding finding action)
    (hcode : finding.code = NON_CANONICAL_MNEMONIC) :
    Recased text (action.edit.apply uri encoding text) := by
  obtain ⟨f, hfix, happly⟩ := h.apply
  obtain ⟨_, -, hfix⟩ := Option.bind_eq_some_iff.mp hfix
  rw [hcode, if_neg (by decide), if_neg (by decide), if_pos rfl] at hfix
  obtain ⟨item, hitem, hfix⟩ := Option.bind_eq_some_iff.mp hfix
  obtain ⟨spelling, hspelling, rfl⟩ := Option.map_eq_some_iff.mp hfix
  rw [LintedDocument.new_assembly, Asm.itemAt_iff] at hitem
  have hkept := (Asm.assemble_traced text).items item hitem.1
  obtain ⟨htext, hkind⟩ := ((Asm.assemble_outlines text).readItems item hitem.1).wellRead
  obtain ⟨line, base, hline, htokens⟩ := hkept.statement.tokens
  have htoken : (⟨.mnemonic, item.mnemonic.span⟩ : Asm.Token) ∈ Asm.tokenize text :=
    hline.tokenize (by rw [htokens]; simp)
  obtain ⟨front, piece, back, hsource, hspan⟩ := hkept.statement.on_mnemonic.usable
  have hpiece : item.mnemonic.text = piece := by
    rw [hkept.mnemonic, hspan, Asm.textOf, Span.text, hsource, ← List.append_assoc,
      sliceBytes_append, Option.getD_some]
  have hne : piece ≠ [] := by
    have horder := hkept.statement.order.2.1
    rintro rfl
    rw [hspan] at horder
    simp at horder
  rw [happly front piece back hsource hne hspan]
  have hcase : toAsciiLowercase spelling.toList = toAsciiLowercase piece := by
    rw [hkind, htext, hpiece] at hspelling
    exact lower_canonical hspelling
  subst hsource
  exact Asm.recased_swap htoken (.inl rfl) hspan hcase

/-- The case of mnemonics never matters, and so the fix for it never changes a program. -/
theorem recased_alike :
    (∀ source source', Recased source source' →
      Alike (Asm.assemble source) (Asm.assemble source')) ∧
    ∀ text linter uri range encoding finding action,
      Offered (.new text linter) uri range encoding finding action →
      finding.code = NON_CANONICAL_MNEMONIC →
        Alike (Asm.assemble text) (Asm.assemble (action.edit.apply uri encoding text)) := by
  constructor
  · intro source source' h
    exact Asm.assemble_recased h
  · intro text linter uri range encoding finding action h hcode
    exact Asm.assemble_recased (h.recased hcode)

theorem recased_alike_halt :
    ∃ finding action,
      Offered (.new "HALT".toList { lints := [Lint.NonCanonicalMnemonic] }) "a.mas".toList
          ⟨⟨0, 0⟩, ⟨0, 0⟩⟩ .utf16 finding action ∧
        Alike (Asm.assemble "HALT".toList)
          (Asm.assemble (action.edit.apply "a.mas".toList .utf16 "HALT".toList)) := by
  have hoffered : Offered (.new "HALT".toList { lints := [Lint.NonCanonicalMnemonic] })
      "a.mas".toList ⟨⟨0, 0⟩, ⟨0, 0⟩⟩ .utf16
      ⟨.advice, NON_CANONICAL_MNEMONIC, ⟨0, 4⟩, 0, "Write `Halt` rather than `HALT`.", [],
        some "Consistent spelling makes a program easier to search."⟩
      ⟨"Write `Halt`", some [⟨⟨⟨0, 0⟩, ⟨0, 4⟩⟩, .HINT, "lint::non-canonical-mnemonic", "lint",
        "Write `Halt` rather than `HALT`.\n\nhelp: " ++
          "Consistent spelling makes a program easier to search.", none⟩],
        ⟨[("a.mas".toList, [⟨⟨⟨0, 0⟩, ⟨0, 4⟩⟩, "Halt".toList⟩])]⟩⟩ :=
    ⟨by decide +kernel, 0, by decide +kernel, by decide +kernel⟩
  exact ⟨_, _, hoffered, recased_alike.2 _ _ _ _ _ _ _ hoffered rfl⟩

end MarieRs.Lsp
