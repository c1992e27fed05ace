import Mathlib

/-! Lines of states that grow at their end: what a system that goes to and fro has been through,
if going on from where it was before leads where it led before. -/

namespace MarieRs.Lib.Timeline

/-- States with what leads from each to the next, up to the last. -/
structure Line (S E : Type*) where
  links : List (S × E)
  last : S

namespace Line

variable {S E : Type*} {line line' line'' : Line S E} {e : E} {s t : S} {k : Nat}

def states (line : Line S E) : List S := line.links.map Prod.fst ++ [line.last]

def extend (line : Line S E) (e : E) (s : S) : Line S E := ⟨line.links ++ [(line.last, e)], s⟩

@[simp] theorem states_extend (line : Line S E) (e : E) (s : S) :
    (line.extend e s).states = line.states ++ [s] := by
  simp [states, extend]

@[simp] theorem states_length (line : Line S E) : line.states.length = line.links.length + 1 := by
  simp [states]

theorem states_last (line : Line S E) : line.states[line.links.length]? = some line.last := by
  simp [states]

theorem states_link (h : line.links[k]? = some (s, e)) : line.states[k]? = some s := by
  have hlt : k < line.links.length := (List.getElem?_eq_some_iff.mp h).1
  rw [states, List.getElem?_append_left (by rw [List.length_map]; exact hlt), List.getElem?_map, h]
  rfl

/-- One line is another that has grown. -/
inductive Grows (line : Line S E) : Line S E → Prop
  | refl : Grows line line
  | extend {line' : Line S E} (h : Grows line line') (e : E) (s : S) :
      Grows line (line'.extend e s)

theorem Grows.trans (h : Grows line line') (h' : Grows line' line'') : Grows line line'' := by
  induction h' with
  | refl => exact h
  | extend _ e s ih => exact ih.extend e s

/-- The states stay where they were. -/
theorem Grows.state (h : Grows line line') (hstate : line.states[k]? = some s) :
    line'.states[k]? = some s := by
  induction h with
  | refl => exact hstate
  | extend _ e' s' ih =>
    rw [states_extend, List.getElem?_append_left (List.getElem?_eq_some_iff.mp ih).1]
    exact ih

/-- Every link leads from its state to the next. -/
inductive Led (leads : E → S → S → Prop) : Line S E → Prop
  | point (s : S) : Led leads ⟨[], s⟩
  | extend {line : Line S E} {e : E} {s : S} (h : Led leads line) (hlink : leads e line.last s) :
      Led leads (line.extend e s)

variable {leads : E → S → S → Prop}

theorem Led.link (h : Led leads line) (hlink : line.links[k]? = some (s, e)) :
    ∃ t, line.states[k + 1]? = some t ∧ leads e s t := by
  induction h with
  | point s => cases hlink
  | @extend line e' s' h hleads ih =>
    rw [states_extend]
    rcases Nat.lt_trichotomy k line.links.length with hlt | rfl | hgt
    · rw [Line.extend, List.getElem?_append_left hlt] at hlink
      obtain ⟨t, hnext, hstep⟩ := ih hlink
      refine ⟨t, ?_, hstep⟩
      rw [List.getElem?_append_left (by rw [states_length]; omega)]
      exact hnext
    · rw [Line.extend, List.getElem?_concat_length] at hlink
      cases hlink
      refine ⟨s', ?_, hleads⟩
      rw [← states_length, List.getElem?_concat_length]
    · rw [Line.extend, List.getElem?_eq_none (by rw [List.length_append]; simp; omega)] at hlink
      cases hlink

theorem Led.mono {leads' : E → S → S → Prop} (hmono : ∀ e s t, leads e s t → leads' e s t)
    (h : Led leads line) : Led leads' line := by
  induction h with
  | point s => exact .point s
  | extend _ hlink ih => exact ih.extend (hmono _ _ _ hlink)

end Line

end MarieRs.Lib.Timeline
