import MarieRs.Asm.Layout
import MarieRs.Asm.Lint

namespace MarieRs.Asm

/-- Somewhere diagnostics can be sent. -/
class Sink (S : Type) where
  push : S → Diagnostic → S

instance : Sink (List Diagnostic) where
  push sink diagnostic := sink ++ [diagnostic]

/-- The sink that drops everything. -/
structure Ignore where

instance : Sink Ignore where
  push sink _ := sink

structure Options where
  lints : List Lint

def Options.bare : Options := ⟨[]⟩

/-- A sink is only written to, so what reaches it is what the passes report, in order. -/
def assembleInto {S : Type} [Sink S] (source : Str) (sink : S) : Assembly × S :=
  let assembly := assemble source
  ({ assembly with diagnostics := [] }, assembly.diagnostics.foldl Sink.push sink)

/-- Runs `lints` over a finished assembly. -/
def runLints {S : Type} [Sink S] (lints : List Lint) (assembly : Assembly) (source : Str)
    (out : S) : S :=
  lints.foldl (fun out lint => (lint.run ⟨assembly, source⟩).foldl Sink.push out) out

/-- The diagnostics of the lints are appended to the assembler's own. -/
def assembleWith (source : Str) (options : Options) : Assembly :=
  let (assembly, diagnostics) := assembleInto source ([] : List Diagnostic)
  let diagnostics :=
    if options.lints.isEmpty then diagnostics
    else runLints options.lints assembly source diagnostics
  { assembly with diagnostics }

/-- A full memory image with the program at its origin, unless assembly failed. -/
def Assembly.image (a : Assembly) : Option MemoryImage :=
  let start := a.origin.index
  if ¬ a.succeeded ∨ start + a.words.length > MEMORY_WORD_COUNT then none
  else some fun address =>
    if start ≤ address.index then (a.words[address.index - start]?).getD 0 else 0

def Assembly.programImage (a : Assembly) : MemoryAddress × List Word := (a.origin, a.words)

theorem foldl_push (sink diagnostics : List Diagnostic) :
    diagnostics.foldl Sink.push sink = sink ++ diagnostics := by
  induction diagnostics generalizing sink with
  | nil => rw [List.foldl_nil, List.append_nil]
  | cons d diagnostics ih =>
    rw [List.foldl_cons, ih]
    simp [Sink.push]

theorem runLints_eq (lints : List Lint) (assembly : Assembly) (source : Str)
    (out : List Diagnostic) : runLints lints assembly source out =
      out ++ lints.flatMap fun lint => lint.run ⟨assembly, source⟩ := by
  induction lints generalizing out with
  | nil => exact (List.append_nil out).symm
  | cons lint lints ih =>
    unfold runLints at ih ⊢
    rw [List.foldl_cons, ih, foldl_push, List.flatMap_cons, List.append_assoc]

/-- The assembly that the lints get to look at. -/
def unreported (source : Str) : Assembly := { assemble source with diagnostics := [] }

theorem assembleWith_eq (source : Str) (options : Options) :
    assembleWith source options = { assemble source with
      diagnostics := (assemble source).diagnostics ++
        options.lints.flatMap fun lint => lint.run ⟨unreported source, source⟩ } := by
  simp only [assembleWith, assembleInto, foldl_push, List.nil_append, runLints_eq]
  split
  · rename_i hempty
    rw [List.isEmpty_iff.mp hempty, List.flatMap_nil, List.append_nil]
  · rfl

/-- Without lints, the assembler is all there is. -/
theorem assembleWith_bare (source : Str) : assembleWith source .bare = assemble source := by
  rw [assembleWith_eq, Options.bare, List.flatMap_nil, List.append_nil]

/-- The words of any source fit into memory from its origin on. -/
theorem assemble_fits (source : Str) :
    (assemble source).origin.toNat + (assemble source).words.length ≤ MEMORY_WORD_COUNT := by
  rw [words_length]
  cases hitems : (assemble source).program.items.getLast? with
  | none =>
    rw [List.getLast?_eq_none_iff.mp hitems]
    exact (assemble source).origin.isLt.le
  | some item =>
    rw [List.getLast?_eq_getElem?] at hitems
    have hlast := item_address (assemble_outlines source) (sketchOf_laid source) hitems
    have hlt : item.address.toNat < MEMORY_WORD_COUNT := item.address.isLt
    have hpos := (List.getElem?_eq_some_iff.mp hitems).1
    omega

/-- What the two passes report on a source, in order. -/
def reported (source : Str) : List Diagnostic :=
  let (parsed, diagnostics) := parse source
  (assembleItems parsed.program.items ⟨parsed.symbols, diagnostics⟩).2.diagnostics

/-- Neither pass reports an error. -/
def Faultless (source : Str) : Prop := ∀ d ∈ reported source, d.isError = false

/-- The assembly says of a source what the assembler found out. -/
structure Decided (source : Str) (a : Assembly) : Prop where
  words : a.words = (assemble source).words
  succeeded : a.succeeded = true ↔ Faultless source
  image : a.image.isSome = true ↔ Faultless source

theorem succeeded_iff (a : Assembly) :
    a.succeeded = true ↔ ∀ d ∈ a.diagnostics, d.isError = false := by
  simp [Assembly.succeeded]

theorem image_isSome {source : Str} {a : Assembly} (horigin : a.origin = (assemble source).origin)
    (hwords : a.words = (assemble source).words) :
    a.image.isSome = true ↔ a.succeeded = true := by
  have hfits := assemble_fits source
  rw [← horigin, ← hwords] at hfits
  have hindex : a.origin.index = a.origin.toNat := rfl
  rw [Assembly.image, hindex]
  by_cases hok : a.succeeded = true
  · rw [if_neg (by simp [hok]; omega)]
    simp [hok]
  · rw [if_pos (.inl hok)]
    simp [hok]

/-- All that can go wrong is the verdict. -/
theorem decided_iff (source : Str) (a : Assembly) (horigin : a.origin = (assemble source).origin)
    (hwords : a.words = (assemble source).words) :
    Decided source a ↔ (a.succeeded = true ↔ Faultless source) := by
  constructor
  · exact Decided.succeeded
  · intro hsucceeded
    exact ⟨hwords, hsucceeded, (image_isSome horigin hwords).trans hsucceeded⟩

/-- Only the assembler decides, exactly when no lint reports an error on a source that the
assembler accepts, and the diagnostics that went into a sink had no error among them. -/
theorem assembler_decides {S : Type} [Sink S] (source : Str) (options : Options) (sink : S) :
    Decided source (assemble source) ∧
    (Decided source (assembleWith source options) ↔ (Faultless source →
      ∀ lint ∈ options.lints, ∀ d ∈ lint.run ⟨unreported source, source⟩, d.isError = false)) ∧
    ((assembleInto source sink).1.words = (assemble source).words) ∧
    (Decided source (assembleInto source sink).1 ↔ Faultless source) := by
  refine ⟨?_, ?_, rfl, ?_⟩
  · exact (decided_iff source _ rfl rfl).mpr (succeeded_iff _)
  · rw [decided_iff source (assembleWith source options) (by rw [assembleWith_eq])
      (by rw [assembleWith_eq]), assembleWith_eq, succeeded_iff]
    have hreported : (assemble source).diagnostics = reported source := rfl
    simp only [hreported, List.mem_append, List.mem_flatMap]
    constructor
    · intro hdecided hfaultless lint hlint d hd
      exact hdecided.mpr hfaultless d (.inr ⟨lint, hlint, hd⟩)
    · intro hlints
      constructor
      · intro hnone d hd
        exact hnone d (.inl hd)
      · intro hfaultless d hd
        rcases hd with hd | ⟨lint, hlint, hd⟩
        · exact hfaultless d hd
        · exact hlints hfaultless lint hlint d hd
  · rw [decided_iff source (assembleInto source sink).1 rfl rfl, succeeded_iff]
    constructor
    · intro hdecided
      exact hdecided.mp fun d hd => by cases hd
    · intro hfaultless
      exact ⟨fun _ => hfaultless, fun _ d hd => by cases hd⟩

/-- A lint that holds everything against a program. -/
def zealous : Lint where
  code := ⟨"house", "zealous"⟩
  description := ""
  run _ := [.error ⟨"house", "zealous"⟩ ⟨0, 0⟩ 0 "No."]

/-- A program without a fault that a lint makes fail, and one with a fault that a sink
makes succeed. -/
theorem assembler_overruled :
    ¬ Decided "Halt".toList (assembleWith "Halt".toList ⟨[zealous]⟩) ∧
      ¬ Decided "Load Missing".toList (assembleInto "Load Missing".toList Ignore.mk).1 := by
  have hhalt : (assembleWith "Halt".toList ⟨[zealous]⟩).succeeded = false := by decide +kernel
  have hmissing : (assembleInto "Load Missing".toList Ignore.mk).1.succeeded = true := by
    decide +kernel
  constructor
  · intro hdecided
    have hfaultless : Faultless "Halt".toList := by
      unfold Faultless
      decide +kernel
    rw [hdecided.succeeded.mpr hfaultless] at hhalt
    cases hhalt
  · intro hdecided
    have hfaultless := hdecided.succeeded.mp hmissing
    revert hfaultless
    unfold Faultless
    decide +kernel

end MarieRs.Asm
