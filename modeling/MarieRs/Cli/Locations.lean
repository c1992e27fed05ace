import MarieRs.Cli.Debugger
import MarieRs.Lint.Levels

namespace MarieRs.Cli

open Asm Vm
open Lint (Mild mild_flatMap mild_standard)

variable {source : Str}

/-- Lints do not keep `marie asm` from assembling. -/
theorem assembleWith_succeeded (source : Str) (lint : Bool) :
    (assembleWith source (if lint then .linting else .bare)).succeeded =
      (assemble source).succeeded := by
  cases lint with
  | false => exact congrArg Assembly.succeeded (assembleWith_bare source)
  | true =>
    have hmild : Mild (Options.linting.lints.flatMap fun lint =>
        lint.run ⟨unreported source, source⟩) := by
      intro d hd
      obtain ⟨lint, hlint, hd⟩ := List.mem_flatMap.mp hd
      obtain ⟨hunused, hafter, hignored⟩ := mild_standard ⟨unreported source, source⟩
      simp only [Options.linting, STANDARD, List.mem_cons, List.not_mem_nil, or_false] at hlint
      rcases hlint with rfl | rfl | rfl
      · exact hunused d hd
      · exact hafter d hd
      · exact hignored d hd
    rw [if_pos rfl, assembleWith_eq, Bool.eq_iff_iff, succeeded_iff, succeeded_iff]
    simp only [List.mem_append]
    constructor
    · exact fun h d hd => h d (.inl hd)
    · rintro h d (hd | hd)
      · exact h d hd
      · exact hmild d hd

/-- The text of a line, without the whitespace at its end. -/
theorem lineText_eq {text : Str} {number base : Nat} (h : AtLine source text number base) :
    lineText (.new source) source number = trimEnd text := by
  obtain ⟨hstart, hend⟩ := line_span h
  have hspan : (LineIndex.new source).lineSpan number =
      some (.new base (base + utf8Len text)) := by
    rw [LineIndex.lineSpan, hstart, hend]
    rfl
  have htext : (Span.new base (base + utf8Len text)).text source = some text := by
    obtain ⟨rest, hsplit⟩ := h.split
    have hslice := sliceBytes_append (joined ((source.splitOn '\n').take number)) text rest
    rw [← hsplit, ← h.base] at hslice
    exact hslice
  rw [lineText, hspan, Option.bind_some, htext, Option.getD_some]

/-- A line of a listing is the word of an item at its address, and the line that it came from. -/
theorem printListing_line {k : Nat} {item : Item}
    (hitem : (assemble source).program.items[k]? = some item) :
    ∃ word text, (assemble source).words[k]? = some word ∧
      (source.splitOn '\n')[item.line]? = some text ∧
      lineText (assemble source).lines source item.line = trimEnd text ∧
      (printListing (assemble source) source)[k]? = some (item.address.display ++ "  " ++
        (hexWord word ++ ("  " ++ String.ofList (trimEnd text)))) := by
  obtain ⟨word, text, base, hword, -, hat⟩ := item_shown hitem
  have htext : lineText (assemble source).lines source item.line = trimEnd text := lineText_eq hat
  refine ⟨word, text, hword, hat.line, htext, ?_⟩
  rw [printListing, List.getElem?_map, List.getElem?_zipIdx, hitem, Option.map_some,
    Option.map_some]
  simp only [Nat.zero_add, hword, Option.getD_some, htext, String.append_assoc]

theorem printListing_reads (source : Str) :
    (printListing (assemble source) source).map readBack = (assemble source).words.zipIdx.map
      fun (word, k) => some (BitVec.ofNat 12 ((assemble source).origin.toNat + k), word) := by
  apply List.ext_getElem?
  intro k
  rw [List.getElem?_map, List.getElem?_map, List.getElem?_zipIdx]
  cases hitem : (assemble source).program.items[k]? with
  | none =>
    have hnone : (assemble source).words[k]? = none := by
      rw [List.getElem?_eq_none_iff, words_length]
      exact List.getElem?_eq_none_iff.mp hitem
    rw [hnone, printListing, List.getElem?_map, List.getElem?_zipIdx, hitem]
    rfl
  | some item =>
    obtain ⟨word, text, hword, -, -, hline⟩ := printListing_line hitem
    have haddress := item_address (assemble_outlines source) (sketchOf_laid source) hitem
    have hplace : item.address = BitVec.ofNat 12 ((assemble source).origin.toNat + k) := by
      rw [← haddress, BitVec.ofNat_toNat, BitVec.setWidth_eq]
    rw [hline, hword, Option.map_some, Option.map_some, Option.map_some, Nat.zero_add,
      readBack_line, hplace]

/-- The dump of all words, of which each has its place in memory. -/
theorem disassemble_all {origin : MemoryAddress} {words : List Word}
    (hfits : origin.toNat + words.length ≤ MEMORY_WORD_COUNT) (hne : words ≠ []) :
    ∃ dumped, disassemble (encodeWords words) origin true = .listed dumped 0 ∧
      dumped.map readBack =
        words.zipIdx.map fun (word, k) => some (BitVec.ofNat 12 (origin.toNat + k), word) := by
  have hmost : 0 + words.length ≤ MEMORY_WORD_COUNT := by omega
  have hreads := dumpLines_reads origin words hmost
  rw [Nat.sub_zero, List.take_of_length_le (by omega)] at hreads
  have hlength := congrArg List.length hreads
  simp only [List.length_map, List.length_zipIdx] at hlength
  refine ⟨_, ?_, hreads⟩
  simp only [disassemble, decodeWords_encodeWords (show words.length ≤ MEMORY_WORD_COUNT by omega),
    if_true, if_neg hne, hlength, lt_irrefl, if_false, Nat.sub_self]

/-- What a listing, the file with the bare words and the debugger tell of a program. -/
structure Located (source : Str) (lines : List String) (bytes : List Byte) : Prop where
  listed : lines.map readBack = (assemble source).words.zipIdx.map
    fun (word, k) => some (BitVec.ofNat 12 ((assemble source).origin.toNat + k), word)
  dumped : (assemble source).words = [] ∨
    ∃ dumped, disassemble bytes (assemble source).origin true = .listed dumped 0 ∧
      dumped.map readBack = lines.map readBack
  /-- The debugger shows the line that the listing shows, of a machine in any state. -/
  shown : ∀ (k : Nat) (item : Item), (assemble source).program.items[k]? = some item →
    ∃ word text, (assemble source).words[k]? = some word ∧
      (source.splitOn '\n')[item.line]? = some text ∧
      lines[k]? = some (item.address.display ++ "  " ++
        (hexWord word ++ ("  " ++ String.ofList (trimEnd text)))) ∧
      ∀ vm follow, listing ⟨some (assemble source), some source, follow⟩ vm item.address =
        .source (item.line + 1) (trimEnd text)
  /-- Elsewhere it shows the word that is there. -/
  elsewhere : ∀ address, (∀ place ∈ (assemble source).places, place.2 ≠ address) → ∀ vm follow,
    listing ⟨some (assemble source), some source, follow⟩ vm address =
      .word (describe (vm.memory address))

/-- The listing, the dump of the written words and the debugger agree on a program that assembles,
with or without its lints. -/
theorem locations_agree {source : Str} (hok : (assemble source).succeeded = true) (lint : Bool) :
    ∃ lines bytes, assembleFile ⟨true, false, lint, false, false⟩ source = .printed lines ∧
      assembleFile ⟨false, false, lint, true, true⟩ source = .wrote bytes ∧
      Located source lines bytes := by
  have hlineFor := lineFor_iff (assemble_outlines source) (sketchOf_laid source)
  have hsucceeded := assembleWith_succeeded source lint
  rw [hok] at hsucceeded
  have hsame := assembleWith_eq source (if lint then .linting else .bare)
  refine ⟨printListing (assemble source) source, encodeWords (assemble source).words, ?_, ?_, ?_⟩
  · have hlisting : printListing (assembleWith source (if lint then .linting else .bare)) source =
        printListing (assemble source) source := by
      rw [hsame]
      rfl
    simp only [assembleFile, hsucceeded, hlisting, not_true_eq_false, if_false, Bool.false_eq_true,
      if_true]
  · have hwords : (assembleWith source (if lint then .linting else .bare)).words =
        (assemble source).words := by
      rw [hsame]
    simp only [assembleFile, hsucceeded, hwords, not_true_eq_false, if_false, if_true]
  · refine ⟨printListing_reads source, ?_, ?_, ?_⟩
    · by_cases hne : (assemble source).words = []
      · exact .inl hne
      · obtain ⟨dumped, hdump, hreads⟩ := disassemble_all (assemble_fits source) hne
        exact .inr ⟨dumped, hdump, hreads.trans (printListing_reads source).symm⟩
    · intro k item hitem
      obtain ⟨word, text, hword, hline, htext, hlisted⟩ := printListing_line hitem
      refine ⟨word, text, hword, hline, hlisted, fun vm follow => ?_⟩
      have hplace : (item.line, item.address) ∈ (assemble source).places :=
        List.mem_append_left _ (List.mem_map_of_mem (List.mem_of_getElem? hitem))
      simp only [listing, Option.bind_some, (hlineFor _ _).mpr hplace, Option.map_some,
        Option.getD_some, htext]
    · intro address hnowhere vm follow
      have hnone : (assemble source).sourceMap.lineFor address = none := by
        cases hline : (assemble source).sourceMap.lineFor address with
        | none => rfl
        | some line => exact absurd rfl (hnowhere _ ((hlineFor _ _).mp hline))
      simp only [listing, Option.bind_some, hnone, Option.map_none, Option.getD_none]

theorem locations_agree_load : ∃ lines bytes,
    assembleFile ⟨true, false, true, false, false⟩ "Load X\nHalt\nX, DEC 1".toList =
      .printed lines ∧
    assembleFile ⟨false, false, true, true, true⟩ "Load X\nHalt\nX, DEC 1".toList =
      .wrote bytes ∧
    Located "Load X\nHalt\nX, DEC 1".toList lines bytes :=
  locations_agree (by decide +kernel) true

end MarieRs.Cli
