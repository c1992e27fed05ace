import MarieRs.Asm.Outline

namespace MarieRs.Asm

/-- Labels get names that are as good as theirs, and `END` stays `END`. -/
structure Rewriting where
  names : Equiv.Perm Str
  digit : ∀ name, ((names name).head?).any isAsciiDigit = (name.head?).any isAsciiDigit
  space : ∀ name, (names name).any isWhitespace = name.any isWhitespace
  statement : Nat → Statement → Statement
  label : ∀ line s, (statement line s).label = s.label.map names
  end_ : ∀ line s, isEnd (statement line s) = isEnd s

namespace Rewriting

variable (r : Rewriting)

def shape (line : Nat) : Shape → Shape
  | .statement s => .statement (r.statement line s)
  | shape => shape

def placed (p : Placed) : Placed := { p with statement := r.statement p.line p.statement }

def sketch (sk : Sketch) : Sketch :=
  { sk with
    items := sk.items.map r.placed
    ended := sk.ended.map r.placed
    labels := fun name => sk.labels (r.names.symm name) }

theorem rejection (labels : Str → Option (MemoryAddress × Nat)) (name : Str) :
    Asm.rejection (fun other => labels (r.names.symm other)) (r.names name) =
      Asm.rejection labels name := by
  simp only [Asm.rejection, r.digit, r.space, Equiv.symm_apply_apply]

theorem place (sk : Sketch) (p : Placed) :
    (r.sketch sk).place (r.placed p) = r.sketch (sk.place p) := by
  have hend : isEnd (r.placed p).statement = isEnd p.statement := r.end_ p.line p.statement
  cases h : isEnd p.statement with
  | true => simp only [Sketch.place, hend, h, if_true]; rfl
  | false =>
    simp only [Sketch.place, hend, h, sketch, Bool.false_eq_true, if_false, List.map_append,
      List.map_singleton]
    rfl

theorem define (sk : Sketch) (name : Str) (address : MemoryAddress) (line : Nat) :
    (r.sketch sk).define (r.names name) address line = r.sketch (sk.define name address line) := by
  simp only [Sketch.define, sketch, Sketch.mk.injEq, true_and, and_true]
  funext other
  simp only [Function.update_apply, Equiv.symm_apply_eq]

theorem accept (sk : Sketch) (p : Placed) :
    (r.sketch sk).accept (r.placed p) = r.sketch (sk.accept p) := by
  have hlabel : (r.placed p).statement.label = p.statement.label.map r.names :=
    r.label p.line p.statement
  rw [Sketch.accept, Sketch.accept, hlabel]
  cases p.statement.label with
  | none => exact r.place sk p
  | some name => rw [← r.place, ← r.define]; rfl

theorem stepStatement (sk : Sketch) (line : Nat) (s : Statement) :
    (r.sketch sk).stepStatement line (r.statement line s) =
      r.sketch (sk.stepStatement line s) := by
  have horigin : (r.sketch sk).originAddress = sk.originAddress := rfl
  have hitems : (r.sketch sk).items.length = sk.items.length := List.length_map ..
  have hlabel : (r.statement line s).label.bind (Asm.rejection (r.sketch sk).labels) =
      s.label.bind (Asm.rejection sk.labels) := by
    rw [r.label, Option.bind_map]
    exact congrArg _ (funext (r.rejection sk.labels))
  rw [Sketch.stepStatement, Sketch.stepStatement, horigin, hitems, hlabel]
  split
  · rfl
  · split
    · rfl
    · rename_i address _ _ _
      exact r.accept sk ⟨line, address, s⟩

/-- One line. -/
theorem step (sk : Sketch) (line : Nat) (shape : Shape) :
    (r.sketch sk).step line (r.shape line shape) = r.sketch (sk.step line shape) := by
  cases hstopped : sk.stopped with
  | true =>
    have hsketch : (r.sketch sk).stopped = true := hstopped
    rw [Sketch.step_stopped hstopped, Sketch.step_stopped hsketch]
  | false =>
    have hsketch : (r.sketch sk).stopped = false := hstopped
    rw [Sketch.step_running hstopped, Sketch.step_running hsketch]
    cases shape with
    | blank => rfl
    | malformed => rfl
    | statement s => exact r.stepStatement sk line s
    | origin digits =>
      have hfirst : (r.sketch sk).items.isEmpty = sk.items.isEmpty := List.isEmpty_map
      have horigin : (r.sketch sk).origin = sk.origin := rfl
      simp only [Rewriting.shape, Sketch.stepForm, hfirst, horigin]
      by_cases hlate : ¬ sk.items.isEmpty ∨ sk.origin.isSome
      · rw [if_pos hlate, if_pos hlate]
        rfl
      · rw [if_neg hlate, if_neg hlate]
        rfl

/-- The lines from number `line` on. -/
def shapes : Nat → List Shape → List Shape
  | _, [] => []
  | line, shape :: rest => r.shape line shape :: shapes (line + 1) rest

theorem shapes_get (line : Nat) (shapes : List Shape) (i : Nat) :
    (r.shapes line shapes)[i]? = (shapes[i]?).map (r.shape (line + i)) := by
  induction shapes generalizing line i with
  | nil => rfl
  | cons shape rest ih =>
    cases i with
    | zero => rfl
    | succ i =>
      have hline : line + 1 + i = line + (i + 1) := by omega
      rw [Rewriting.shapes, List.getElem?_cons_succ, List.getElem?_cons_succ, ih, hline]

theorem run (line : Nat) (shapes : List Shape) (sk : Sketch) :
    Sketch.run line (r.shapes line shapes) (r.sketch sk) = r.sketch (Sketch.run line shapes sk) := by
  induction shapes generalizing line sk with
  | nil => rfl
  | cons shape rest ih => rw [Rewriting.shapes, Sketch.run, r.step, ih, Sketch.run]

end Rewriting

end MarieRs.Asm
