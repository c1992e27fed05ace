import MarieRs.Asm.Relabel
import MarieRs.Lsp.Columns

namespace MarieRs.Lsp

open Asm (Assembly Symbol Role Span LineIndex Relabels NewName)
open Lib.Splice (Piece Edit walk editsOf)

/-- The texts assemble to the same program, in which one label has a new name. -/
structure Renamed (source source' old new : Str) : Prop where
  succeeded : (Asm.assemble source').succeeded = true
  origin : (Asm.assemble source').origin = (Asm.assemble source).origin
  words : (Asm.assemble source').words = (Asm.assemble source).words
  labels : ∀ name, (Asm.assemble source').symbols.addressOf name =
    if name = new then (Asm.assemble source).symbols.addressOf old
    else if name = old then none
    else (Asm.assemble source).symbols.addressOf name

theorem newName_of_renameError {name : Str} (h : renameError name = none) : NewName name := by
  unfold renameError at h
  repeat' first | split at h | cases h
  rename_i hempty hdigit hspace hcomma hslash
  refine ⟨hempty, ⟨by simpa using hdigit, by simpa using hspace⟩, ?_⟩
  rw [List.all_eq_true]
  intro c hc
  have hnotComma : c ≠ ',' := by
    rintro rfl
    exact hcomma (by simpa using hc)
  have hnotSlash : c ≠ '/' := by
    rintro rfl
    exact hslash (by simpa using hc)
  simp [Asm.isLabelChar, hnotComma, hnotSlash]

theorem findAt_mem {table : Asm.SymbolTable} {offset : Nat} {symbol : Symbol} {role : Role}
    (h : table.findAt offset = some (symbol, role)) :
    ∃ name, table.get name = some symbol := by
  obtain ⟨⟨name, found⟩, hmem, hfound⟩ := List.exists_of_findSome?_eq_some h
  have hget : table.get name = some found :=
    Std.TreeMap.mem_toList_iff_getElem?_eq_some.mp hmem
  split at hfound
  · cases hfound
    exact ⟨name, hget⟩
  · split at hfound
    · cases hfound
      exact ⟨name, hget⟩
    · cases hfound

/-- A symbol of the table has the name it is found under. -/
theorem symbol_name {source name : Str} {symbol : Symbol}
    (h : (Asm.assemble source).symbols.get name = some symbol) : symbol.name = name := by
  obtain ⟨read, hread, rfl⟩ := (Asm.assemble_outlines source).readSymbols name symbol h
  obtain ⟨_, _, _, _, _, _, _, _, hname, -⟩ := hread
  exact hname

/-- The server's positions, for a client that walks over the text. -/
theorem position_place {source : Str} (encoding : PositionEncoding) {before after : Str}
    (h : source = before ++ after) :
    (Positions.mk source (.new source) encoding).position (walk Asm.nextByte 0 before) =
      walk (advance encoding) ⟨0, 0⟩ before := by
  rw [Asm.walk_nextByte, Nat.zero_add, h, position_walk]

theorem applyEdits_cut {source old new : Str} (h : Relabels source old new) {symbol : Symbol}
    (hsymbol : (Asm.assemble source).symbols.get old = some symbol) (encoding : PositionEncoding) :
    applyEdits encoding ((symbol.definition :: symbol.references).map fun span =>
        ⟨(Positions.mk source (.new source) encoding).range span, new⟩) source =
      (Asm.cutSource source old new).flatMap Piece.after := by
  have hbefore := Asm.cutSource_before source old new
  have hwhole : source =
      [] ++ ((Asm.cutSource source old new).flatMap Piece.before ++ []) := by
    rw [List.nil_append, List.append_nil, hbefore]
  have hplaces := Lib.Splice.editsOf_relocate
    (fun _ _ hsplit => position_place encoding hsplit) hwhole
  have hedits := (Asm.symbol_edits new hsymbol).map
    (Edit.relocate (Positions.mk source (.new source) encoding).position)
  rw [Lib.Splice.walk_nil, Lib.Splice.walk_nil] at hplaces
  rw [← hplaces, List.map_map] at hedits
  have hsplice := Lib.Splice.splice_pieces (advance_lt encoding) h.proper ⟨0, 0⟩ hedits
  rw [hbefore] at hsplice
  rw [applyEdits, List.map_map]
  exact hsplice

theorem relabelled_renamed {source old new : Str} (h : Relabels source old new) :
    Renamed source ((Asm.cutSource source old new).flatMap Piece.after) old new := by
  obtain ⟨hsucceeded, horigin, hwords, hlabels⟩ := Asm.assemble_renamed h.renaming h.sketch
  have hnone : new = old ∨ (Asm.assemble source).symbols.addressOf new = none := by
    refine h.fresh.imp_right fun hfresh => ?_
    have hlabel := (Asm.assemble_outlines source).labels new
    rw [hfresh, Option.map_eq_none_iff] at hlabel
    rw [Asm.SymbolTable.addressOf, hlabel, Option.map_none]
  refine ⟨hsucceeded.trans h.succeeded, horigin, hwords, fun name => ?_⟩
  have hsymm : h.renaming.names.symm name = Equiv.swap old new name := rfl
  rw [hlabels, hsymm, Equiv.swap_apply_def]
  split_ifs with hold hnew hnew
  · rw [← hnew, hold]
  · rcases hnone with rfl | hnone
    · exact absurd hold hnew
    · exact hnone
  · rfl
  · rfl

/-- What the server checks before it renames is enough. -/
theorem relabels_of_rename {source newName : Str} {symbol : Symbol}
    (hok : (Asm.assemble source).succeeded = true) (herror : renameError newName = none)
    (hsymbol : (Asm.assemble source).symbols.get symbol.name = some symbol)
    (hfree : ¬ (symbol.name ≠ newName ∧ (Asm.assemble source).symbols.contains newName)) :
    Relabels source symbol.name newName where
  succeeded := hok
  defined := by
    rw [← (Asm.assemble_outlines source).labels, hsymbol]
    rfl
  fresh := by
    by_cases hname : newName = symbol.name
    · exact .inl hname
    · have habsent : (Asm.assemble source).symbols.get newName = none := by
        have hcontains : ¬ (Asm.assemble source).symbols.contains newName :=
          fun hmem => hfree ⟨Ne.symm hname, hmem⟩
        rw [Asm.SymbolTable.contains, Std.TreeMap.contains_eq_isSome_getElem?] at hcontains
        exact Option.not_isSome_iff_eq_none.mp hcontains
      refine .inr ?_
      rw [← (Asm.assemble_outlines source).labels, habsent]
      rfl
  name := newName_of_renameError herror

/-- Renaming a label keeps the program. -/
theorem rename_preserves {source : Str} {uri : Uri} {position : Position} {newName : Str}
    {encoding : PositionEncoding} {edit : WorkspaceEdit}
    (hok : (Asm.assemble source).succeeded = true)
    (h : rename (.new source) uri position newName encoding = .ok (some edit)) :
    ∃ symbol role edits, symbolAt (.new source) position encoding = some (symbol, role) ∧
      edit.changes = [(uri, edits)] ∧
      Renamed source (applyEdits encoding edits source) symbol.name newName := by
  unfold rename at h
  cases herror : renameError newName with
  | some reason =>
    rw [herror] at h
    cases h
  | none =>
    cases hfound : symbolAt (.new source) position encoding with
    | none =>
      rw [herror, hfound] at h
      cases h
    | some found =>
      obtain ⟨symbol, role⟩ := found
      simp only [herror, hfound] at h
      split at h
      · cases h
      · rename_i hfree
        cases h
        obtain ⟨offset, -, hat⟩ := Option.bind_eq_some_iff.mp hfound
        obtain ⟨name, hsymbol⟩ := findAt_mem hat
        have hname : symbol.name = name := symbol_name hsymbol
        subst hname
        have hrelabels := relabels_of_rename hok herror hsymbol hfree
        refine ⟨symbol, role, _, rfl, rfl, ?_⟩
        exact applyEdits_cut hrelabels hsymbol encoding ▸ relabelled_renamed hrelabels

/-- Columns count UTF-16 code units: `😀` is two of them. -/
theorem rename_preserves_wide :
    ∃ symbol role edits,
      symbolAt (.new "😀, Load 😀\nHalt".toList) ⟨0, 9⟩ .utf16 = some (symbol, role) ∧
      (⟨[("a.mas".toList, [⟨⟨⟨0, 0⟩, ⟨0, 2⟩⟩, "Sum".toList⟩, ⟨⟨⟨0, 9⟩, ⟨0, 11⟩⟩, "Sum".toList⟩])]⟩ :
        WorkspaceEdit).changes = [("a.mas".toList, edits)] ∧
      Renamed "😀, Load 😀\nHalt".toList
        (applyEdits .utf16 edits "😀, Load 😀\nHalt".toList) symbol.name "Sum".toList :=
  rename_preserves (by decide +kernel) (by decide +kernel)

end MarieRs.Lsp
