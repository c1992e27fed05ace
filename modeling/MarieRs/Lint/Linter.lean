import MarieRs.Asm.Api
import MarieRs.Lint.Hazards
import MarieRs.Lint.Style

namespace MarieRs.Lint

open Asm (Assembly Code Diagnostic Lint)

/-- What to do with the diagnostics of a lint. -/
inductive Level where
  | allow | warn | deny
  deriving DecidableEq, Repr

/-- Every lint about programs, in reporting order. -/
def ALL : List Lint :=
  [FallsIntoData, FallsOffEnd, JumpsOutsideProgram, UnreachableInstruction, MaskedSkipcond,
    SkipcondLabelOperand, JnsOverwritesCode, SelfModifyingCode, MissingHalt,
    NonCanonicalMnemonic, LabelShadowsMnemonic]

structure Linter where
  lints : List Lint
  levels : Code → Option Level := fun _ => none
  defaultLevel : Level := .warn

namespace Linter

/-- All lints of this repository. -/
def new : Linter where
  lints := ALL ++ Asm.STANDARD

def set (linter : Linter) (code : Code) (level : Level) : Linter :=
  { linter with levels := fun other => if other = code then some level else linter.levels other }

def levelOf (linter : Linter) (code : Code) : Level := (linter.levels code).getD linter.defaultLevel

end Linter

theorem mem_lints {lint : Lint} (h : lint ∈ Linter.new.lints) :
    lint = FallsIntoData ∨ lint = FallsOffEnd ∨ lint = JumpsOutsideProgram ∨
      lint = UnreachableInstruction ∨ lint = MaskedSkipcond ∨ lint = SkipcondLabelOperand ∨
      lint = JnsOverwritesCode ∨ lint = SelfModifyingCode ∨ lint = MissingHalt ∨
      lint = NonCanonicalMnemonic ∨ lint = LabelShadowsMnemonic ∨ lint = Asm.UnusedLabel ∨
      lint = Asm.UnreachableCode ∨ lint = Asm.IgnoredOperand := by
  simpa only [Linter.new, ALL, Asm.STANDARD, List.cons_append, List.nil_append, List.mem_cons,
    List.not_mem_nil, or_false] using h

/-- A linted file: the diagnostics of the assembler, then those of the lints, while the
assembly keeps the assembler's only. -/
structure Outcome where
  assembly : Assembly
  diagnostics : List Diagnostic

/-- `Deny` promotes what a lint found to errors. -/
def Level.apply (level : Level) (d : Diagnostic) : Diagnostic :=
  if level = .deny then { d with severity := .error } else d

@[simp] theorem Level.apply_code (level : Level) (d : Diagnostic) :
    (level.apply d).code = d.code := by
  unfold Level.apply
  split <;> rfl

@[simp] theorem Level.apply_span (level : Level) (d : Diagnostic) :
    (level.apply d).span = d.span := by
  unfold Level.apply
  split <;> rfl

namespace Linter

/-- What one lint contributes. -/
def produced (linter : Linter) (assembly : Assembly) (source : Str) (lint : Lint) :
    List Diagnostic :=
  let level := linter.levelOf lint.code
  if level = .allow then [] else (lint.run ⟨assembly, source⟩).map level.apply

def check (linter : Linter) (source : Str) : Outcome :=
  let (assembly, diagnostics) := Asm.assembleInto source ([] : List Diagnostic)
  let assembly := { assembly with diagnostics }
  ⟨assembly, linter.lints.foldl
    (fun diagnostics lint => diagnostics ++ linter.produced assembly source lint) diagnostics⟩

/-- The linter looks at what the assembler made of the source. -/
theorem check_assembly (linter : Linter) (source : Str) :
    (linter.check source).assembly = Asm.assemble source := by
  simp only [check, Asm.assembleInto, Asm.foldl_push, List.nil_append]

theorem check_diagnostics (linter : Linter) (source : Str) :
    (linter.check source).diagnostics = (Asm.assemble source).diagnostics ++
      linter.lints.flatMap (linter.produced (Asm.assemble source) source) := by
  have hfold : ∀ (lints : List Lint) (diagnostics : List Diagnostic),
      lints.foldl (fun diagnostics lint =>
        diagnostics ++ linter.produced (Asm.assemble source) source lint) diagnostics =
          diagnostics ++ lints.flatMap (linter.produced (Asm.assemble source) source) := by
    intro lints
    induction lints with
    | nil => exact fun diagnostics => (List.append_nil diagnostics).symm
    | cons lint lints ih =>
      intro diagnostics
      rw [List.foldl_cons, ih, List.flatMap_cons, List.append_assoc]
  simp only [check, Asm.assembleInto, Asm.foldl_push, List.nil_append]
  exact hfold linter.lints (Asm.assemble source).diagnostics

end Linter

end MarieRs.Lint
