import MarieRs.Cli.Input
import MarieRs.Lsp.Queries
import MarieRs.Vm.Loading

namespace MarieRs.Lsp

open Asm (AtLine Item On)
open Vm (MarieVMCore)

/-- What a line became, shown behind it. -/
structure InlayHint where
  position : Position
  label : String
  deriving DecidableEq

def hintLabel (address : MemoryAddress) (word : Word) : String :=
  address.display ++ ": " ++ String.ofList (hexPadded 4 word.toNat)

/-- A hint for every assembled word whose line falls inside a range. -/
def inlayHints (document : Document) (range : Range) (encoding : PositionEncoding) :
    List InlayHint :=
  let positions := document.positions encoding
  let assembly := document.assembly
  -- only errors make the words meaningless
  if ¬ assembly.succeeded then []
  else
    (assembly.program.items.zipIdx.filter fun found =>
      found.1.line ≥ range.start.line && found.1.line ≤ range.stop.line).filterMap fun found =>
        (assembly.words[found.2]?).bind fun word =>
          (assembly.lines.lineEnd found.1.line).map fun lineEnd =>
            ⟨positions.position lineEnd, hintLabel found.1.address word⟩

/-- Whether a range has part of the line of an item. -/
def shows (range : Range) (item : Item) : Bool :=
  item.line ≥ range.start.line && item.line ≤ range.stop.line

/-- Behind every line in the range that was assembled, the hint says what a machine into which the
text is loaded has in memory at the address of the line. All that such a machine has in memory was
assembled on some line. -/
theorem inlayHints_tell (text : Str) (hok : (Asm.assemble text).succeeded = true) (range : Range)
    (encoding : PositionEncoding) {D : Type} (device : D) :
    ∃ program vm, Cli.loadSource text none = .ok program ∧
      program.install (.new device) = .ok vm ∧
      inlayHints (.new text) range encoding =
        ((Asm.assemble text).program.items.filter (shows range)).map (fun item =>
          ⟨⟨item.line, encoding.measure (((text.splitOn '\n')[item.line]?).getD [])⟩,
            hintLabel item.address (vm.memory item.address)⟩) ∧
      (Asm.assemble text).program.items.Pairwise (fun item item' => item.line < item'.line) ∧
      ∀ address, vm.memory address ≠ 0 →
        ∃ item ∈ (Asm.assemble text).program.items, item.address = address := by
  obtain ⟨program, vm, hprogram, hinstall, hload⟩ := Cli.source_installs hok device
  have houtlines := Asm.assemble_outlines text
  have hlaid := Asm.sketchOf_laid text
  refine ⟨program, vm, hprogram, hinstall, ?_,
    List.pairwise_map.mp (Asm.item_lines houtlines hlaid), fun address hword => ?_⟩
  · obtain ⟨-, -, hmemory⟩ := MarieVMCore.loadProgram_starts hload
    have hok' : (Document.new text).assembly.succeeded = true := hok
    have hshown : ∀ found ∈ (Asm.assemble text).program.items.zipIdx.filter
        (fun found => shows range found.1),
        (((Asm.assemble text).words[found.2]?).bind fun word =>
          ((Asm.LineIndex.new text).lineEnd found.1.line).map fun lineEnd =>
            (⟨(positionsOf text encoding).position lineEnd, hintLabel found.1.address word⟩ :
              InlayHint)) =
        some ⟨⟨found.1.line, encoding.measure (((text.splitOn '\n')[found.1.line]?).getD [])⟩,
          hintLabel found.1.address (vm.memory found.1.address)⟩ := by
      rintro ⟨item, i⟩ hfound
      have hitem := List.mem_zipIdx_iff_getElem?.mp (List.mem_filter.mp hfound).1
      obtain ⟨word, line, base, hword, haddress, hat⟩ := Asm.item_shown hitem
      have hend := (Asm.line_span hat).2
      have hposition := position_line encoding hat (List.prefix_refl line)
      simp only [hword, hend, Option.bind_some, Option.map_some, hposition, hat.line,
        Option.getD_some, hmemory item.address i word haddress hword]
    unfold inlayHints
    rw [if_neg (by rw [hok']; decide)]
    refine (List.filterMap_congr hshown).trans ?_
    have hitems : (Asm.assemble text).program.items.filter (shows range) =
        ((Asm.assemble text).program.items.zipIdx.filter fun found => shows range found.1).map
          Prod.fst := by
      conv_lhs => rw [← List.zipIdx_map_fst 0 (Asm.assemble text).program.items]
      exact List.filter_map
    rw [hitems, List.map_map]
    exact congrFun List.filterMap_eq_map _
  · rw [Cli.load_new device (Asm.assemble_fits text)] at hload
    cases hload
    change (if (Asm.assemble text).origin.index ≤ address.index then _ else _) ≠ _ at hword
    split at hword
    · rename_i hle
      have hlt : address.index - (Asm.assemble text).origin.index <
          (Asm.assemble text).program.items.length := by
        rw [← Asm.words_length]
        by_contra hge
        rw [List.getElem?_eq_none (not_lt.mp hge)] at hword
        exact hword rfl
      obtain ⟨item, hitem⟩ : ∃ item, (Asm.assemble text).program.items[
          address.index - (Asm.assemble text).origin.index]? = some item :=
        ⟨_, List.getElem?_eq_getElem hlt⟩
      refine ⟨item, List.mem_of_getElem? hitem, BitVec.eq_of_toNat_eq ?_⟩
      rw [Asm.item_address houtlines hlaid hitem]
      exact Nat.add_sub_cancel' hle
    · exact absurd rfl hword

theorem inlayHints_tell_wide :
    ∃ program vm, Cli.loadSource "é, DEC 5\nHalt".toList none = .ok program ∧
      program.install (.new ()) = .ok vm ∧
      inlayHints (.new "é, DEC 5\nHalt".toList) ⟨⟨0, 0⟩, ⟨0, 3⟩⟩ .utf8 =
        [⟨⟨0, 9⟩, "000: 0005"⟩] ∧
      ∀ address, vm.memory address ≠ 0 →
        ∃ item ∈ (Asm.assemble "é, DEC 5\nHalt".toList).program.items,
          item.address = address := by
  obtain ⟨program, vm, hprogram, hinstall, -, -, hwords⟩ :=
    inlayHints_tell "é, DEC 5\nHalt".toList (by decide +kernel) ⟨⟨0, 0⟩, ⟨0, 3⟩⟩ .utf8 ()
  exact ⟨program, vm, hprogram, hinstall, by decide +kernel, hwords⟩

end MarieRs.Lsp
