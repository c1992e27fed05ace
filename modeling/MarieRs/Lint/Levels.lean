import MarieRs.Lint.Findings

namespace MarieRs.Lint

open Asm (Code Diagnostic Lint LintContext)

/-- A denied lint counts. -/
def Outcome.hasErrors (outcome : Outcome) : Bool := outcome.diagnostics.any Diagnostic.isError

/-- Nothing here keeps a file from being assembled. -/
def Mild (diagnostics : List Diagnostic) : Prop := ∀ d ∈ diagnostics, d.isError = false

theorem mild_nil : Mild [] := by simp [Mild]

theorem mild_one {d : Diagnostic} (h : d.isError = false) : Mild [d] := by simpa [Mild] using h

theorem mild_flatMap {α : Type} {l : List α} {f : α → List Diagnostic} (h : ∀ a, Mild (f a)) :
    Mild (l.flatMap f) := by
  intro d hd
  obtain ⟨a, -, hd⟩ := List.mem_flatMap.mp hd
  exact h a d hd

theorem mild_overItems {cx : LintContext} {indices : List Nat}
    {check : Nat → Asm.Item → List Diagnostic} (h : ∀ index item, Mild (check index item)) :
    Mild (overItems cx indices check) := by
  intro d hd
  obtain ⟨index, item, -, hd⟩ := mem_overItems hd
  exact h index item d hd

theorem mild_graph {cx : LintContext} {run : Cfg → List Diagnostic} (h : ∀ cfg, Mild (run cfg)) :
    Mild (match graph cx with
      | none => []
      | some cfg => run cfg) := by
  cases graph cx with
  | none => exact mild_nil
  | some cfg => exact h cfg

theorem mild_flow (cx : LintContext) : Mild (FallsIntoData.run cx) ∧ Mild (FallsOffEnd.run cx) ∧
    Mild (JumpsOutsideProgram.run cx) ∧ Mild (UnreachableInstruction.run cx) := by
  refine ⟨mild_graph fun cfg => mild_overItems fun index item => ?_,
    mild_graph fun cfg => mild_overItems fun index item => ?_,
    mild_graph fun cfg => mild_overItems fun index item => mild_flatMap fun edge => ?_,
    mild_graph fun cfg => ?_⟩
  · split
    · exact mild_nil
    · exact mild_one rfl
  · split
    · exact mild_nil
    · split
      · exact mild_nil
      · exact mild_one rfl
  · cases edge with
    | outside address => exact mild_one rfl
    | _ => exact mild_nil
  · split
    · exact mild_nil
    · apply mild_overItems
      intro index item
      split
      · exact mild_nil
      · exact mild_one rfl

theorem mild_hazards (cx : LintContext) :
    Mild (MaskedSkipcond.run cx) ∧ Mild (SkipcondLabelOperand.run cx) ∧
      Mild (JnsOverwritesCode.run cx) ∧ Mild (SelfModifyingCode.run cx) := by
  refine ⟨mild_overItems fun index item => ?_, mild_flatMap fun item => ?_,
    mild_graph fun cfg => mild_overItems fun index item => ?_,
    mild_graph fun cfg => mild_overItems fun index item => ?_⟩
  · split
    · exact mild_nil
    · split
      · exact mild_nil
      · simp only
        split
        · exact mild_nil
        · split
          · exact mild_nil
          · exact mild_one rfl
  · split
    · exact mild_nil
    · split
      · exact mild_nil
      · split
        · exact mild_nil
        · split
          · exact mild_nil
          · exact mild_one rfl
  all_goals
    split
    · exact mild_nil
    · split
      · exact mild_nil
      · split
        · exact mild_nil
        · exact mild_overItems fun _ victim => mild_one rfl

theorem mild_style (cx : LintContext) : Mild (MissingHalt.run cx) ∧
    Mild (NonCanonicalMnemonic.run cx) ∧ Mild (LabelShadowsMnemonic.run cx) := by
  refine ⟨?_, mild_flatMap fun item => ?_, mild_flatMap fun symbol => ?_⟩
  · simp only [MissingHalt]
    split
    · exact mild_nil
    · split
      · exact mild_nil
      · exact mild_one rfl
  · split
    · exact mild_nil
    · split
      · exact mild_nil
      · exact mild_one rfl
  · simp only
    split
    · exact mild_one rfl
    · exact mild_nil

theorem mild_standard (cx : LintContext) : Mild (Asm.UnusedLabel.run cx) ∧
    Mild (Asm.UnreachableCode.run cx) ∧ Mild (Asm.IgnoredOperand.run cx) := by
  refine ⟨?_, ?_, mild_flatMap fun item => ?_⟩
  · intro d hd
    obtain ⟨symbol, -, rfl⟩ := List.mem_map.mp hd
    rfl
  · simp only [Asm.UnreachableCode]
    split
    · exact mild_one rfl
    · exact mild_nil
  · split
    · exact mild_nil
    · split
      · exact mild_nil
      · exact mild_one rfl

theorem mild_lint (cx : LintContext) {lint : Lint} (hlint : lint ∈ Linter.new.lints) :
    Mild (lint.run cx) := by
  obtain ⟨hdata, hend, houtside, hunreachable⟩ := mild_flow cx
  obtain ⟨hmasked, hlabel, hjns, hstore⟩ := mild_hazards cx
  obtain ⟨hhalt, hcanonical, hshadows⟩ := mild_style cx
  obtain ⟨hunused, hafter, hignored⟩ := mild_standard cx
  rcases mem_lints hlint with
    rfl | rfl | rfl | rfl | rfl | rfl | rfl | rfl | rfl | rfl | rfl | rfl | rfl | rfl
  all_goals assumption

/-- What all lints find, before there are levels. -/
def found (source : Str) : List Diagnostic :=
  Linter.new.lints.flatMap fun lint => lint.run ⟨Asm.assemble source, source⟩

/-- What is left of a finding at a level. -/
def Level.retell (level : Level) (d : Diagnostic) : Option Diagnostic :=
  if level = .allow then none else some (level.apply d)

theorem found_cases {source : Str} {d : Diagnostic} (hd : d ∈ found source) :
    d.isError = false ∧ ∃ lint ∈ Linter.new.lints, d.code = lint.code := by
  obtain ⟨lint, hlint, hd⟩ := List.mem_flatMap.mp hd
  exact ⟨mild_lint _ hlint d hd, lint, hlint,
    (lints_finds ⟨Asm.assemble_traced source, rfl⟩ hlint hd).code⟩

theorem retell_isError {level : Level} {d d' : Diagnostic} (hmild : d.isError = false)
    (h : level.retell d = some d') : d'.isError = true ↔ level = .deny := by
  unfold Level.retell at h
  split at h
  · cases h
  · cases h
    unfold Level.apply
    split
    · rename_i hdeny
      exact ⟨fun _ => hdeny, fun _ => rfl⟩
    · rename_i hdeny
      rw [hmild]
      exact ⟨Bool.noConfusion, fun hlevel => absurd hlevel hdeny⟩

section Levels
variable {linter : Linter} (hlints : linter.lints = Linter.new.lints) (source : Str)
include hlints

/-- A linter reports what the assembler reports, and what the lints find by the levels of its
codes. -/
theorem check_found : (linter.check source).diagnostics = (Asm.assemble source).diagnostics ++
    (found source).filterMap fun d => (linter.levelOf d.code).retell d := by
  rw [Linter.check_diagnostics, hlints, found, List.filterMap_flatMap]
  congr 1
  apply List.flatMap_congr
  intro lint hlint
  have hlevel : ∀ d ∈ lint.run ⟨Asm.assemble source, source⟩,
      (linter.levelOf d.code).retell d = (linter.levelOf lint.code).retell d := by
    intro d hd
    rw [(lints_finds ⟨Asm.assemble_traced source, rfl⟩ hlint hd).code]
  rw [List.filterMap_congr hlevel]
  unfold Linter.produced Level.retell
  by_cases hallow : linter.levelOf lint.code = .allow
  · simp only [hallow, if_true, List.filterMap_none]
  · simp only [hallow, if_false]
    rw [List.filterMap_eq_map']

/-- A file fails if it does not assemble, or if a denied lint finds something. -/
theorem hasErrors_iff : (linter.check source).hasErrors = true ↔
    (Asm.assemble source).succeeded = false ∨
      ∃ d ∈ found source, linter.levelOf d.code = .deny := by
  rw [Outcome.hasErrors, check_found hlints, List.any_append, Bool.or_eq_true]
  refine or_congr ?_ ?_
  · rw [Asm.Assembly.succeeded, Bool.not_eq_false']
  · rw [List.any_eq_true]
    constructor
    · rintro ⟨d', hd', herror⟩
      obtain ⟨d, hd, hretell⟩ := List.mem_filterMap.mp hd'
      exact ⟨d, hd, (retell_isError (found_cases hd).1 hretell).mp herror⟩
    · rintro ⟨d, hd, hdeny⟩
      have hretell : (linter.levelOf d.code).retell d = some (Level.deny.apply d) := by
        rw [hdeny, Level.retell, if_neg (by simp)]
      exact ⟨_, List.mem_filterMap.mpr ⟨d, hd, hretell⟩,
        (retell_isError (found_cases hd).1 hretell).mpr hdeny⟩

end Levels

end MarieRs.Lint
