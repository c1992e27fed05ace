import MarieRs.Cli.Drivers
import MarieRs.Lint.Levels

namespace MarieRs.Cli.Linting

open Asm (Code Diagnostic)
open Lint (Level Linter found)

/-- The flags that name lints. -/
structure Args where
  allow : List String
  deny : List String
  denyAll : Bool

/-- Every code that can be configured: the lints, not the errors of the assembler. -/
def knownCodes : List Code := Linter.new.lints.map Asm.Lint.code

/-- Resolves a lint name written on the command line, bare or qualified, to its code. -/
def resolve (written : String) : Except Report Code :=
  match knownCodes.find? fun code => code.name == written || code.display == written with
  | some code => .ok code
  | none =>
    .error ⟨"unknown lint '" ++ written ++ "'",
      some ("known lints: " ++ ", ".intercalate ((knownCodes.map Code.name).mergeSort (· ≤ ·)))⟩

/-- Sets the level of the lints that are named, one after another. -/
def setAll (level : Level) (linter : Linter) : List String → Except Report Linter
  | [] => .ok linter
  | written :: rest =>
    match resolve written with
    | .error report => .error report
    | .ok code => setAll level (linter.set code level) rest

/-- Applies the flags to the standard lint set. -/
def configure (args : Args) : Except Report Linter :=
  let linter := if args.denyAll then { Linter.new with defaultLevel := .deny } else Linter.new
  match setAll .allow linter args.allow with
  | .error report => .error report
  | .ok linter => setAll .deny linter args.deny

/-- How `marie lint` ends: it fails if it reports an error, or does not know a lint. -/
inductive Linted where
  | noFindings
  | printed (diagnostics : List Diagnostic)
  | failed (diagnostics : List Diagnostic)
  | unknownLint (report : Report)

/-- Lints the file and reports the findings. -/
def run (args : Args) (source : Str) : Linted :=
  match configure args with
  | .error report => .unknownLint report
  | .ok linter =>
    let outcome := linter.check source
    if outcome.diagnostics = [] then .noFindings
    else if outcome.hasErrors then .failed outcome.diagnostics
    else .printed outcome.diagnostics

/-- What is written names the lint, bare or qualified. -/
def Names (written : String) (code : Code) : Prop := code.name = written ∨ code.display = written

instance (written : String) (code : Code) : Decidable (Names written code) :=
  inferInstanceAs (Decidable (_ ∨ _))

/-- No two lints go by one name. -/
theorem knownCodes_apart : ∀ code ∈ knownCodes, ∀ code' ∈ knownCodes,
    code.name = code'.name ∨ code.display = code'.display ∨ code.name = code'.display →
      code = code' := by
  decide +kernel

theorem names_unique {written : String} {code code' : Code} (hcode : code ∈ knownCodes)
    (hcode' : code' ∈ knownCodes) (h : Names written code) (h' : Names written code') :
    code = code' := by
  rcases h with hname | hdisplay <;> rcases h' with hname' | hdisplay'
  · exact knownCodes_apart code hcode code' hcode' (.inl (hname.trans hname'.symm))
  · exact knownCodes_apart code hcode code' hcode' (.inr (.inr (hname.trans hdisplay'.symm)))
  · exact (knownCodes_apart code' hcode' code hcode
      (.inr (.inr (hname'.trans hdisplay.symm)))).symm
  · exact knownCodes_apart code hcode code' hcode' (.inr (.inl (hdisplay.trans hdisplay'.symm)))

theorem resolve_ok {written : String} {code : Code} :
    resolve written = .ok code ↔ code ∈ knownCodes ∧ Names written code := by
  unfold resolve
  constructor
  · intro h
    split at h
    · rename_i found hfind
      cases h
      refine ⟨List.mem_of_find?_eq_some hfind, ?_⟩
      simpa [Names] using List.find?_some hfind
    · cases h
  · rintro ⟨hcode, hnames⟩
    split
    · rename_i found hfind
      have hfound : Names written found := by simpa [Names] using List.find?_some hfind
      rw [names_unique (List.mem_of_find?_eq_some hfind) hcode hfound hnames]
    · rename_i hnone
      have hnot := List.find?_eq_none.mp hnone code hcode
      exact absurd (by simpa [Names] using hnames) hnot

/-- A name that no lint goes by. -/
def Unknown (written : String) : Prop := ∀ code ∈ knownCodes, ¬Names written code

instance (written : String) : Decidable (Unknown written) :=
  inferInstanceAs (Decidable (∀ code ∈ knownCodes, _))

theorem resolve_error {written : String} :
    (∃ report, resolve written = .error report) ↔ Unknown written := by
  constructor
  · rintro ⟨report, herror⟩ code hcode hnames
    rw [resolve_ok.mpr ⟨hcode, hnames⟩] at herror
    cases herror
  · intro hunknown
    cases hresolve : resolve written with
    | error report => exact ⟨report, rfl⟩
    | ok code =>
      obtain ⟨hcode, hnames⟩ := resolve_ok.mp hresolve
      exact absurd hnames (hunknown code hcode)

/-- Setting levels fails at a name that no lint goes by, and only there. -/
theorem setAll_error {level : Level} {linter : Linter} {written : List String} :
    (∃ report, setAll level linter written = .error report) ↔ ∃ name ∈ written, Unknown name := by
  induction written generalizing linter with
  | nil => simp [setAll]
  | cons name rest ih =>
    rw [setAll, List.exists_mem_cons_iff, ← resolve_error]
    cases resolve name with
    | error report => simp
    | ok code => simpa using ih

theorem setAll_ok {level : Level} {linter linter' : Linter} {written : List String}
    (h : setAll level linter written = .ok linter') :
    linter'.lints = linter.lints ∧ ∀ code ∈ knownCodes, linter'.levelOf code =
      if ∃ name ∈ written, Names name code then level else linter.levelOf code := by
  induction written generalizing linter with
  | nil =>
    cases h
    simp
  | cons name rest ih =>
    rw [setAll] at h
    split at h
    · cases h
    · rename_i named hresolve
      obtain ⟨hlints, hlevels⟩ := ih h
      refine ⟨hlints, fun code hcode => ?_⟩
      obtain ⟨hnamed, hnames⟩ := resolve_ok.mp hresolve
      rw [hlevels code hcode]
      by_cases hrest : ∃ name ∈ rest, Names name code
      · rw [if_pos hrest, if_pos (List.exists_mem_cons_of_exists hrest)]
      · rw [if_neg hrest]
        by_cases hsame : code = named
        · subst hsame
          rw [if_pos ⟨name, List.mem_cons_self, hnames⟩]
          simp [Linter.levelOf, Linter.set]
        · have hnot : ¬∃ name' ∈ name :: rest, Names name' code := by
            rintro ⟨name', hmem, hnames'⟩
            rcases List.mem_cons.mp hmem with rfl | hmem
            · exact hsame (names_unique hcode hnamed hnames' hnames)
            · exact hrest ⟨name', hmem, hnames'⟩
          rw [if_neg hnot]
          simp [Linter.levelOf, Linter.set, hsame]

/-- The level that the flags give to a lint: to deny it wins over to allow it, and either over what
is asked of every lint. -/
def Args.level (args : Args) (code : Code) : Level :=
  if ∃ name ∈ args.deny, Names name code then .deny
  else if ∃ name ∈ args.allow, Names name code then .allow
  else if args.denyAll then .deny
  else .warn

theorem configure_ok {args : Args} {linter : Linter} (h : configure args = .ok linter) :
    linter.lints = Linter.new.lints ∧
      ∀ code ∈ knownCodes, linter.levelOf code = args.level code := by
  unfold configure at h
  simp only at h
  split at h
  · cases h
  · rename_i allowing hallow
    obtain ⟨hlints, hallowed⟩ := setAll_ok hallow
    obtain ⟨hlints', hdenied⟩ := setAll_ok h
    constructor
    · rw [hlints', hlints]
      split <;> rfl
    · intro code hcode
      rw [hdenied code hcode, hallowed code hcode, Args.level]
      cases args.denyAll <;> rfl

theorem configure_error {args : Args} : (∃ report, configure args = .error report) ↔
    ∃ written ∈ args.allow ++ args.deny, Unknown written := by
  unfold configure
  simp only [List.mem_append, or_and_right, exists_or]
  generalize (if args.denyAll then { Linter.new with defaultLevel := .deny } else Linter.new) =
    linter
  have hallowed := @setAll_error .allow linter args.allow
  cases hallow : setAll .allow linter args.allow with
  | error report =>
    refine ⟨fun _ => .inl (hallowed.mp ⟨report, hallow⟩), fun _ => ⟨report, rfl⟩⟩
  | ok allowing =>
    have hknown : ¬∃ written ∈ args.allow, Unknown written := by
      intro hunknown
      obtain ⟨report, herror⟩ := hallowed.mpr hunknown
      rw [hallow] at herror
      cases herror
    rw [or_iff_right hknown]
    exact setAll_error

/-- `marie lint` tells what the assembler found, and of what the lints find that which the flags
leave of it. It fails if the file does not assemble or a denied lint finds something, or at once
if a flag names no lint. -/
theorem lint_run (args : Args) (source : Str) :
    (Linter.new.check source).diagnostics = (Asm.assemble source).diagnostics ++ found source ∧
    if ∃ written ∈ args.allow ++ args.deny, Unknown written then
      ∃ report, run args source = .unknownLint report
    else
      let reported := (Asm.assemble source).diagnostics ++
        (found source).filterMap fun d => (args.level d.code).retell d
      run args source =
        if reported = [] then .noFindings
        else if (Asm.assemble source).succeeded = false ∨
          ∃ d ∈ found source, args.level d.code = .deny then .failed reported
        else .printed reported := by
  constructor
  · have hplain : ∀ d ∈ found source, (Linter.new.levelOf d.code).retell d = some d :=
      fun d _ => rfl
    rw [Lint.check_found rfl, List.filterMap_congr hplain, List.filterMap_some]
  · split
    · rename_i hunknown
      obtain ⟨report, herror⟩ := configure_error.mpr hunknown
      refine ⟨report, ?_⟩
      rw [run, herror]
    · rename_i hknown
      cases hconfigure : configure args with
      | error report => exact absurd (configure_error.mp ⟨report, hconfigure⟩) hknown
      | ok linter =>
        obtain ⟨hlints, hlevels⟩ := configure_ok hconfigure
        have hlevel : ∀ d ∈ found source, linter.levelOf d.code = args.level d.code := by
          intro d hd
          obtain ⟨-, lint, hlint, hcode⟩ := Lint.found_cases hd
          rw [hcode]
          exact hlevels _ (List.mem_map_of_mem hlint)
        have hreported : (linter.check source).diagnostics = (Asm.assemble source).diagnostics ++
            (found source).filterMap fun d => (args.level d.code).retell d := by
          rw [Lint.check_found hlints]
          congr 1
          exact List.filterMap_congr fun d hd => by rw [hlevel d hd]
        have hfails : (linter.check source).hasErrors = true ↔
            (Asm.assemble source).succeeded = false ∨
              ∃ d ∈ found source, args.level d.code = .deny := by
          rw [Lint.hasErrors_iff hlints]
          refine or_congr_right (exists_congr fun d => and_congr_right fun hd => ?_)
          rw [hlevel d hd]
        simp only [run, hconfigure, hreported, hfails]

end MarieRs.Cli.Linting
