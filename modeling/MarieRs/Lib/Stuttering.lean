import Mathlib

/-! A system that follows another one, command by command, but for commands that pass
it by. -/

namespace MarieRs.Lib.Stuttering

variable {S T C : Type*}

/-- Commands one after the other. -/
def run (step : S → C → S) (s : S) (commands : List C) : S := commands.foldl step s

/-- The commands that do not pass the system by where they come. -/
def heard (step : S → C → S) (skips : S → C → Bool) : S → List C → List C
  | _, [] => []
  | s, c :: commands =>
    if skips s c then heard step skips (step s c) commands
    else c :: heard step skips (step s c) commands

/-- What holds of every command where it comes. -/
def Along (step : S → C → S) (good : S → C → Prop) : S → List C → Prop
  | _, [] => True
  | s, c :: commands => good s c ∧ Along step good (step s c) commands

/-- Seen through `view`, a command that is skipped changes nothing and any other does what the
system that is followed does, if it is a good command there. -/
structure Follows (step : S → C → S) (skips : S → C → Bool) (step' : T → C → T)
    (good : T → C → Prop) (view : S → T) : Prop where
  skipped : ∀ s c, skips s c = true → view (step s c) = view s
  followed : ∀ s c, skips s c = false → good (view s) c → view (step s c) = step' (view s) c

/-- What every command keeps, all of them keep. -/
theorem run_keeps {step : S → C → S} {α : Type*} (measure : S → α)
    (h : ∀ s c, measure (step s c) = measure s) (s : S) (commands : List C) :
    measure (run step s commands) = measure s := by
  induction commands generalizing s with
  | nil => rfl
  | cons c commands ih => exact (ih (step s c)).trans (h s c)

variable {step : S → C → S} {skips : S → C → Bool} {step' : T → C → T} {good : T → C → Prop}
  {view : S → T}

/-- As long as the commands are good, the system follows the other one. -/
theorem Follows.run (h : Follows step skips step' good view) (s : S) (commands : List C)
    (hgood : Along step' good (view s) (Stuttering.heard step skips s commands)) :
    view (Stuttering.run step s commands) =
      Stuttering.run step' (view s) (Stuttering.heard step skips s commands) := by
  induction commands generalizing s with
  | nil => rfl
  | cons c commands ih =>
    rw [Stuttering.heard] at hgood ⊢
    cases hskips : skips s c with
    | true =>
      have hsame := h.skipped s c hskips
      rw [hskips, if_pos rfl, ← hsame] at hgood
      rw [if_pos rfl, ← hsame]
      exact ih (step s c) hgood
    | false =>
      rw [hskips, if_neg Bool.false_ne_true] at hgood
      rw [if_neg Bool.false_ne_true]
      have hstep := h.followed s c hskips hgood.1
      have hrest := hgood.2
      rw [← hstep] at hrest
      change view (Stuttering.run step (step s c) commands) = Stuttering.run step' (step' _ c) _
      rw [← hstep]
      exact ih (step s c) hrest

/-- A count that never falls, and rises with every command that is not good, tells whether there
was one. -/
theorem along_of_count (count : T → Nat) (hgood : ∀ t c, count t ≤ count (step' t c))
    (hbad : ∀ t c, ¬good t c → count t < count (step' t c)) (t : T) (commands : List C)
    (h : count (run step' t commands) ≤ count t) : Along step' good t commands := by
  have hrises : ∀ (t : T) (commands : List C), count t ≤ count (run step' t commands) := by
    intro t commands
    induction commands generalizing t with
    | nil => exact le_rfl
    | cons c commands ih => exact (hgood t c).trans (ih (step' t c))
  induction commands generalizing t with
  | nil => trivial
  | cons c commands ih =>
    have hrest : count (run step' (step' t c) commands) ≤ count t := h
    have hfirst := hrises (step' t c) commands
    have hfrom := hgood t c
    refine ⟨?_, ih (step' t c) (by omega)⟩
    by_contra hnot
    have hless := hbad t c hnot
    omega

end MarieRs.Lib.Stuttering
