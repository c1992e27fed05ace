import Mathlib

/-! Marking what a graph can reach, with a stack of vertices still to visit. The
vertices are the indices of a list of marks. -/

namespace MarieRs.Lib.Worklist

open Relation (ReflTransGen)

theorem count_set {marks : List Bool} {v : Nat} (h : marks[v]? = some false) :
    (marks.set v true).count false < marks.count false := by
  obtain ⟨hv, hfalse⟩ := List.getElem?_eq_some_iff.mp h
  have hpos : 0 < marks.count false := List.count_pos_iff.mpr (hfalse ▸ List.getElem_mem hv)
  rw [List.count_set hv, hfalse]
  simp only [beq_self_eq_true, if_true]
  have hne : (true == false) = false := rfl
  rw [hne]
  simp only [Bool.false_eq_true, if_false]
  omega

/-- Takes a vertex off the stack and, if it has no mark yet, marks it and puts its
successors on the stack. A vertex that is no index is skipped. -/
def mark (next : Nat → List Nat) (marks : List Bool) : List Nat → List Bool
  | [] => marks
  | v :: stack =>
    if _h : marks[v]? = some false then
      mark next (marks.set v true) ((next v).reverse ++ stack)
    else mark next marks stack
termination_by stack => (marks.count false, stack.length)
decreasing_by
  · exact Prod.Lex.left _ _ (count_set _h)
  · exact Prod.Lex.right _ (Nat.lt_succ_self _)

/-- What holds of the marks and the stack at any time: marks are sound, and what a
marked vertex leads to has a mark or is still to be visited. -/
structure Progress (next : Nat → List Nat) (roots : List Nat) (marks : List Bool)
    (stack : List Nat) : Prop where
  rooted : ∀ v, marks[v]? = some true ∨ v ∈ stack →
    ∃ root ∈ roots, ReflTransGen (fun a b => b ∈ next a) root v
  started : ∀ root ∈ roots, marks[root]? ≠ some false ∨ root ∈ stack
  closed : ∀ v, marks[v]? = some true → ∀ w ∈ next v, marks[w]? ≠ some false ∨ w ∈ stack

variable {next : Nat → List Nat} {roots : List Nat} {marks : List Bool}

theorem Progress.skip {v : Nat} {stack : List Nat} (h : Progress next roots marks (v :: stack))
    (hv : marks[v]? ≠ some false) : Progress next roots marks stack where
  rooted := fun w hw => h.rooted w (hw.imp_right (List.mem_cons_of_mem v))
  started := by
    intro root hroot
    rcases h.started root hroot with hmark | hmem
    · exact .inl hmark
    · rcases List.mem_cons.mp hmem with rfl | hmem
      · exact .inl hv
      · exact .inr hmem
  closed := by
    intro w hw x hx
    rcases h.closed w hw x hx with hmark | hmem
    · exact .inl hmark
    · rcases List.mem_cons.mp hmem with rfl | hmem
      · exact .inl hv
      · exact .inr hmem

theorem marks_set {v w : Nat} (hv : marks[v]? = some false) :
    (marks.set v true)[w]? = if v = w then some true else marks[w]? := by
  obtain ⟨hlt, -⟩ := List.getElem?_eq_some_iff.mp hv
  simp [List.getElem?_set, hlt]

theorem Progress.visit {v : Nat} {stack : List Nat} (h : Progress next roots marks (v :: stack))
    (hv : marks[v]? = some false) :
    Progress next roots (marks.set v true) ((next v).reverse ++ stack) := by
  obtain ⟨root, hroot, hpath⟩ := h.rooted v (.inr List.mem_cons_self)
  have hstays : ∀ w, marks[w]? ≠ some false ∨ w ∈ v :: stack →
      (marks.set v true)[w]? ≠ some false ∨ w ∈ (next v).reverse ++ stack := by
    intro w hw
    rw [marks_set hv]
    split
    · exact .inl (by simp)
    · rename_i hne
      refine hw.imp_right fun hmem => List.mem_append_right _ ?_
      exact (List.mem_cons.mp hmem).resolve_left (Ne.symm hne)
  refine ⟨fun w hw => ?_, fun w hw => hstays w (h.started w hw), fun w hw x hx => ?_⟩
  · rw [marks_set hv] at hw
    split at hw
    · rename_i heq
      exact ⟨root, hroot, heq ▸ hpath⟩
    · rcases hw with hmark | hmem
      · exact h.rooted w (.inl hmark)
      · rcases List.mem_append.mp hmem with hnext | hmem
        · exact ⟨root, hroot, hpath.tail (List.mem_reverse.mp hnext)⟩
        · exact h.rooted w (.inr (List.mem_cons_of_mem v hmem))
  · rw [marks_set hv] at hw
    split at hw
    · rename_i heq
      subst heq
      exact .inr (List.mem_append_left _ (List.mem_reverse.mpr hx))
    · exact hstays x (h.closed w hw x hx)

theorem mark_progress {stack : List Nat} (h : Progress next roots marks stack) :
    Progress next roots (mark next marks stack) [] := by
  induction marks, stack using mark.induct next with
  | case1 marks => rwa [mark]
  | case2 marks v stack hv ih =>
    rw [mark, dif_pos hv]
    exact ih (h.visit hv)
  | case3 marks v stack hv ih =>
    rw [mark, dif_neg hv]
    exact ih (h.skip hv)

theorem mark_length (next : Nat → List Nat) (marks : List Bool) (stack : List Nat) :
    (mark next marks stack).length = marks.length := by
  induction marks, stack using mark.induct next with
  | case1 marks => rw [mark]
  | case2 marks v stack hv ih => rw [mark, dif_pos hv, ih, List.length_set]
  | case3 marks v stack hv ih => rw [mark, dif_neg hv, ih]

/-- From no marks at all, the marks are the vertices with a path from a root. -/
theorem mark_iff {n : Nat} (hroots : ∀ root ∈ roots, root < n)
    (hnext : ∀ v, ∀ w ∈ next v, w < n) (v : Nat) :
    (mark next (List.replicate n false) roots)[v]? = some true ↔
      ∃ root ∈ roots, ReflTransGen (fun a b => b ∈ next a) root v := by
  have hstart : Progress next roots (List.replicate n false) roots := by
    have hnone : ∀ v : Nat, (List.replicate n false)[v]? ≠ some true := by
      intro v
      rw [List.getElem?_replicate]
      split <;> simp
    exact ⟨fun v hv => ⟨v, hv.resolve_left (hnone v), .refl⟩, fun root hroot => .inr hroot,
      fun v hv => absurd hv (hnone v)⟩
  have hend := mark_progress hstart
  have hmarked : ∀ w < n, (mark next (List.replicate n false) roots)[w]? ≠ some false →
      (mark next (List.replicate n false) roots)[w]? = some true := by
    intro w hw hne
    have hlt : w < (mark next (List.replicate n false) roots).length := by
      rwa [mark_length, List.length_replicate]
    rw [List.getElem?_eq_getElem hlt] at hne ⊢
    simpa using hne
  constructor
  · exact fun hv => hend.rooted v (.inl hv)
  · rintro ⟨root, hroot, hpath⟩
    induction hpath with
    | refl =>
      exact hmarked root (hroots root hroot) ((hend.started root hroot).resolve_right (by simp))
    | tail _ hstep ih =>
      exact hmarked _ (hnext _ _ hstep) ((hend.closed _ ih _ hstep).resolve_right (by simp))

/-- The loop with a bound on its rounds, where a vertex that is no index is an error. -/
def markChecked (next : Nat → List Nat) : Nat → List Bool → List Nat → Option (List Bool)
  | _, marks, [] => some marks
  | 0, _, _ :: _ => none
  | fuel + 1, marks, v :: stack =>
    match marks[v]? with
    | none => none
    | some true => markChecked next fuel marks stack
    | some false => markChecked next fuel (marks.set v true) ((next v).reverse ++ stack)

/-- Each round takes a vertex off the stack, and only a first visit puts others on it. So what
is on the stack and what unvisited vertices can still put there bound the rounds. -/
theorem markChecked_eq {degree : Nat} (hdegree : ∀ v, (next v).length ≤ degree)
    (hnext : ∀ v, ∀ w ∈ next v, w < marks.length) {stack : List Nat}
    (hstack : ∀ v ∈ stack, v < marks.length) {fuel : Nat}
    (hfuel : stack.length + degree * marks.count false ≤ fuel) :
    markChecked next fuel marks stack = some (mark next marks stack) := by
  induction marks, stack using mark.induct next generalizing fuel with
  | case1 marks =>
    rw [mark]
    cases fuel <;> rfl
  | case2 marks v stack hv ih =>
    have hcount := count_set hv
    have hout := hdegree v
    have hmore := Nat.mul_le_mul_left degree (Nat.succ_le_of_lt hcount)
    rw [Nat.mul_succ] at hmore
    rw [List.length_cons] at hfuel
    obtain ⟨fuel, rfl⟩ : ∃ fuel', fuel = fuel' + 1 := ⟨fuel - 1, by omega⟩
    rw [mark, dif_pos hv, markChecked, hv]
    apply ih
    · rw [List.length_set]
      exact hnext
    · intro w hw
      rw [List.length_set]
      rcases List.mem_append.mp hw with hw | hw
      · exact hnext v w (List.mem_reverse.mp hw)
      · exact hstack w (List.mem_cons_of_mem v hw)
    · rw [List.length_append, List.length_reverse]
      omega
  | case3 marks v stack hv ih =>
    rw [List.length_cons] at hfuel
    obtain ⟨fuel, rfl⟩ : ∃ fuel', fuel = fuel' + 1 := ⟨fuel - 1, by omega⟩
    have hlt : v < marks.length := hstack v List.mem_cons_self
    have htrue : marks[v]? = some true := by
      rw [List.getElem?_eq_getElem hlt] at hv ⊢
      simpa using hv
    rw [mark, dif_neg hv, markChecked, htrue]
    exact ih hnext (fun w hw => hstack w (List.mem_cons_of_mem v hw)) (by omega)

/-- `mark` by recursion on a bound, which evaluates. -/
def markWithin (next : Nat → List Nat) : Nat → List Bool → List Nat → Option (List Bool)
  | _, marks, [] => some marks
  | 0, _, _ :: _ => none
  | fuel + 1, marks, v :: stack =>
    if marks[v]? = some false then
      markWithin next fuel (marks.set v true) ((next v).reverse ++ stack)
    else markWithin next fuel marks stack

theorem mark_of_within {fuel : Nat} {marks result : List Bool} {stack : List Nat}
    (h : markWithin next fuel marks stack = some result) : mark next marks stack = result := by
  induction fuel generalizing marks stack with
  | zero =>
    cases stack with
    | nil =>
      cases h
      rw [mark]
    | cons v stack => cases h
  | succ fuel ih =>
    cases stack with
    | nil =>
      cases h
      rw [mark]
    | cons v stack =>
      rw [markWithin] at h
      rw [mark]
      split at h
      · rename_i hv
        rw [dif_pos hv]
        exact ih h
      · rename_i hv
        rw [dif_neg hv]
        exact ih h

end MarieRs.Lib.Worklist
