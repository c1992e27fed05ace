import MarieRs.Asm.Layout
import MarieRs.Asm.Rewriting
import MarieRs.Asm.Room

namespace MarieRs.Asm

/-- The operand of a statement is looked up as a label. -/
def Statement.looksUp (s : Statement) : Bool :=
  match operandOpcode (classify (toAsciiLowercase s.mnemonic)), s.operand with
  | some opcode, some text => opcode.takesOperand && !looksLikeAddressLiteral text
  | _, _ => false

def Statement.rename (f : Str → Str) (s : Statement) : Statement :=
  { s with
    label := s.label.map f
    operand := if s.looksUp then s.operand.map f else s.operand }

def Shape.rename (f : Str → Str) : Shape → Shape
  | .statement s => .statement (s.rename f)
  | shape => shape

/-- A permutation of names that the assembler cannot tell apart from the identity:
a name is accepted as a label, and looked up as one, before and after. -/
structure Renaming where
  names : Equiv.Perm Str
  digit : ∀ name, ((names name).head?).any isAsciiDigit = (name.head?).any isAsciiDigit
  space : ∀ name, (names name).any isWhitespace = name.any isWhitespace
  literal : ∀ name, looksLikeAddressLiteral (names name) = looksLikeAddressLiteral name

theorem Sketch.WellNamed.not_literal {name : Str} (h : WellNamed name) :
    looksLikeAddressLiteral name = false := by
  cases name with
  | nil => rfl
  | cons c rest =>
    have hdigit : isAsciiDigit c = false := by simpa using h.1
    rw [looksLikeAddressLiteral, hdigit, Bool.false_and]

/-- Two names that are acceptable change places. -/
def Renaming.swap (old new : Str) (hold : Sketch.WellNamed old)
    (hnew : Sketch.WellNamed new) : Renaming where
  names := Equiv.swap old new
  digit := fun name => by
    rw [Equiv.swap_apply_def]
    split_ifs with heq heq
    · rw [heq, hold.1, hnew.1]
    · rw [heq, hold.1, hnew.1]
    · rfl
  space := fun name => by
    rw [Equiv.swap_apply_def]
    split_ifs with heq heq
    · rw [heq, hold.2, hnew.2]
    · rw [heq, hold.2, hnew.2]
    · rfl
  literal := fun name => by
    rw [Equiv.swap_apply_def]
    split_ifs with heq heq
    · rw [heq, hold.not_literal, hnew.not_literal]
    · rw [heq, hold.not_literal, hnew.not_literal]
    · rfl

namespace Renaming

variable (r : Renaming)

def placed (p : Placed) : Placed := { p with statement := p.statement.rename r.names }

def sketch (sk : Sketch) : Sketch :=
  { sk with
    items := sk.items.map r.placed
    ended := sk.ended.map r.placed
    labels := fun name => sk.labels (r.names.symm name) }

/-- Every step of the first pass commutes with the renaming. -/
def rewriting : Rewriting where
  names := r.names
  digit := r.digit
  space := r.space
  statement := fun _ s => s.rename r.names
  label := fun _ _ => rfl
  end_ := fun _ _ => rfl

theorem step_rename (sk : Sketch) (line : Nat) (shape : Shape) :
    (r.sketch sk).step line (shape.rename r.names) = r.sketch (sk.step line shape) := by
  have hshape : shape.rename r.names = r.rewriting.shape line shape := by cases shape <;> rfl
  rw [hshape]
  exact r.rewriting.step sk line shape

theorem operandAddress_rename (labels : Labels) {text : Str}
    (h : looksLikeAddressLiteral text = false) :
    operandAddress (fun name => labels (r.names.symm name)) (r.names text) =
      operandAddress labels text := by
  have hname : looksLikeAddressLiteral (r.names text) = false := by rw [r.literal, h]
  simp only [operandAddress, h, hname, Bool.false_eq_true, if_false, Equiv.symm_apply_apply]

theorem operandAddress_literal (labels labels' : Labels) {text : Str}
    (h : looksLikeAddressLiteral text = true) :
    operandAddress labels text = operandAddress labels' text := by
  simp only [operandAddress, h, if_true]

theorem instructionWord_rename (labels : Labels) {opcode : Opcode} {s : Statement}
    (h : operandOpcode (classify (toAsciiLowercase s.mnemonic)) = some opcode) :
    instructionWord (fun name => labels (r.names.symm name)) opcode (s.rename r.names).operand =
      instructionWord labels opcode s.operand := by
  cases hoperand : s.operand with
  | none => simp [Statement.rename, hoperand, instructionWord]
  | some text =>
    have hlooks : s.looksUp = (opcode.takesOperand && !looksLikeAddressLiteral text) := by
      simp only [Statement.looksUp, h, hoperand]
    have hrenamed : (s.rename r.names).operand =
        if s.looksUp then some (r.names text) else some text := by
      rw [Statement.rename, hoperand, Option.map_some]
    rw [hrenamed, hlooks]
    cases htakes : opcode.takesOperand with
    | false => simp [instructionWord, htakes]
    | true =>
      cases hliteral : looksLikeAddressLiteral text with
      | true =>
        have haddress :=
          operandAddress_literal (fun name => labels (r.names.symm name)) labels hliteral
        simp [instructionWord, htakes, haddress]
      | false =>
        have haddress := r.operandAddress_rename labels hliteral
        simp [instructionWord, htakes, haddress]

theorem wordOf_rename (labels : Labels) (s : Statement) :
    wordOf (fun name => labels (r.names.symm name)) (s.rename r.names) = wordOf labels s := by
  have hmnemonic : (s.rename r.names).mnemonic = s.mnemonic := rfl
  have hkept : operandOpcode (classify (toAsciiLowercase s.mnemonic)) = none →
      (s.rename r.names).operand = s.operand := by
    intro hnone
    simp [Statement.rename, Statement.looksUp, hnone]
  rw [wordOf, wordOf, hmnemonic]
  cases hkind : classify (toAsciiLowercase s.mnemonic) with
  | unknown => rfl
  | opcode opcode => exact r.instructionWord_rename labels (by rw [hkind]; rfl)
  | directive directive =>
    rw [hkind] at hkept
    cases directive with
    | org | end_ => rfl
    | clear => rfl
    | adr => exact r.instructionWord_rename labels (by rw [hkind]; rfl)
    | dec | oct | hex => simp only [hkept rfl]

theorem addressOf_rename (sk : Sketch) :
    (r.sketch sk).addressOf = fun name => sk.addressOf (r.names.symm name) := rfl

theorem words_rename (sk : Sketch) : (r.sketch sk).words = sk.words := by
  have hitems : (r.sketch sk).items = sk.items.map r.placed := rfl
  rw [Sketch.words, Sketch.words, hitems, List.map_map, addressOf_rename]
  refine List.map_congr_left fun p _ => ?_
  simp only [Function.comp_apply, placed, wordOf_rename]

theorem failures_rename (sk : Sketch) : (r.sketch sk).failures = sk.failures := by
  have hitems : (r.sketch sk).items = sk.items.map r.placed := rfl
  rw [Sketch.failures, Sketch.failures, hitems, List.flatMap_map, addressOf_rename]
  simp only [placed, wordOf_rename]

end Renaming

/-- Renaming all lines of a program gives a program with the same words, whose labels
have new names. -/
theorem assemble_renamed (r : Renaming) {source source' : Str}
    (hshapes : sketchOf source' = r.sketch (sketchOf source)) :
    (assemble source').succeeded = (assemble source).succeeded ∧
      (assemble source').origin = (assemble source).origin ∧
      (assemble source').words = (assemble source).words ∧
      ∀ name, (assemble source').symbols.addressOf name =
        (assemble source).symbols.addressOf (r.names.symm name) := by
  have h := assemble_outlines source
  have h' := assemble_outlines source'
  rw [hshapes] at h'
  refine ⟨?_, ?_, ?_, fun name => ?_⟩
  · rw [Bool.eq_iff_iff, h.succeeded, h'.succeeded, r.failures_rename]
    rfl
  · rw [h.origin, h'.origin]
    rfl
  · rw [h.words, h'.words, r.words_rename]
  · rw [h.addressOf, h'.addressOf]
    rfl

end MarieRs.Asm
