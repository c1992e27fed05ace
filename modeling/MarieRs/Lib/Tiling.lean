import Mathlib

namespace MarieRs.Lib.Tiling

/-! Pieces cut out of a sequence, with only blanks left between them. Each piece is told
by where it starts and stops, in the weight of what comes before. -/

variable {α : Type}

def size (weight : α → Nat) (l : List α) : Nat := (l.map weight).sum

section Size
variable (weight : α → Nat)

@[simp] theorem size_nil : size weight ([] : List α) = 0 := rfl

@[simp] theorem size_cons (a : α) (l : List α) :
    size weight (a :: l) = weight a + size weight l := by
  simp [size]

@[simp] theorem size_append (l l' : List α) :
    size weight (l ++ l') = size weight l + size weight l' := by
  simp [size]

theorem size_pos {weight : α → Nat} (hpos : ∀ a, 0 < weight a) {l : List α} (h : l ≠ []) :
    0 < size weight l := by
  cases l with
  | nil => exact absurd rfl h
  | cons a l =>
    have := hpos a
    rw [size_cons]
    omega

end Size

/-- The ranges are pieces of the sequence, which starts at a given offset. Every piece has
something in it and satisfies `P`; everything between two pieces is blank. -/
inductive Tiles (weight : α → Nat) (blank : α → Bool) (P : List α → Prop) :
    Nat → List α → List (Nat × Nat) → Prop
  | gap {start : Nat} {gap : List α} (hgap : gap.all blank = true) :
    Tiles weight blank P start gap []
  | piece {start : Nat} {gap piece rest : List α} {ranges : List (Nat × Nat)}
      (hgap : gap.all blank = true) (hne : piece ≠ []) (hpiece : P piece)
      (hrest : Tiles weight blank P (start + size weight gap + size weight piece) rest ranges) :
    Tiles weight blank P start (gap ++ (piece ++ rest))
      ((start + size weight gap, start + size weight gap + size weight piece) :: ranges)

/-- An element of two sequences in a row lies in the one or in the other. -/
theorem append_split {first second before after : List α} {a : α}
    (h : first ++ second = before ++ a :: after) :
    (∃ rest, first = before ++ a :: rest) ∨
      ∃ rest, before = first ++ rest ∧ second = rest ++ a :: after := by
  rcases List.append_eq_append_iff.mp h with ⟨rest, hbefore, hsecond⟩ | ⟨rest, hfirst, hafter⟩
  · exact .inr ⟨rest, hbefore, hsecond⟩
  · cases rest with
    | nil => exact .inr ⟨[], by simpa using hfirst.symm, hafter.symm⟩
    | cons b rest =>
      obtain ⟨rfl, -⟩ := List.cons.inj hafter
      exact .inl ⟨rest, hfirst⟩

namespace Tiles

variable {weight : α → Nat} {blank : α → Bool} {P : List α → Prop} {start : Nat}
  {l : List α} {ranges : List (Nat × Nat)}

theorem blanks_append {first : List α} (hfirst : first.all blank = true)
    (h : Tiles weight blank P (start + size weight first) l ranges) :
    Tiles weight blank P start (first ++ l) ranges := by
  cases h with
  | gap hgap => exact .gap (by rw [List.all_append, hfirst, hgap]; rfl)
  | @piece _ gap piece rest ranges hgap hne hpiece hrest =>
    have hall : (first ++ gap).all blank = true := by
      rw [List.all_append, hfirst, hgap]
      rfl
    have hsize : start + size weight first + size weight gap =
        start + size weight (first ++ gap) := by rw [size_append, Nat.add_assoc]
    rw [← List.append_assoc, hsize]
    rw [hsize] at hrest
    exact .piece hall hne hpiece hrest

theorem append {l' : List α} {ranges' : List (Nat × Nat)}
    (h : Tiles weight blank P start l ranges)
    (h' : Tiles weight blank P (start + size weight l) l' ranges') :
    Tiles weight blank P start (l ++ l') (ranges ++ ranges') := by
  induction h with
  | gap hgap => exact blanks_append hgap h'
  | @piece start gap piece rest ranges hgap hne hpiece hrest ih =>
    rw [List.append_assoc, List.append_assoc, List.cons_append]
    refine .piece hgap hne hpiece (ih ?_)
    rw [size_append, size_append] at h'
    simpa only [Nat.add_assoc] using h'

/-- Where a piece sits. -/
theorem split (h : Tiles weight blank P start l ranges) {range : Nat × Nat}
    (hrange : range ∈ ranges) :
    ∃ before piece after, l = before ++ (piece ++ after) ∧ piece ≠ [] ∧ P piece ∧
      range = (start + size weight before, start + size weight before + size weight piece) := by
  induction h with
  | gap => cases hrange
  | @piece start gap piece rest ranges hgap hne hpiece hrest ih =>
    rcases List.mem_cons.mp hrange with rfl | hrange
    · exact ⟨gap, piece, rest, rfl, hne, hpiece, rfl⟩
    · obtain ⟨before, other, after, rfl, hother, hP, rfl⟩ := ih hrange
      refine ⟨gap ++ (piece ++ before), other, after, ?_, hother, hP, ?_⟩
      · simp only [List.append_assoc]
      · simp only [size_append, Nat.add_assoc]

theorem bounds (h : Tiles weight blank P start l ranges) {range : Nat × Nat}
    (hrange : range ∈ ranges) : start ≤ range.1 ∧ range.2 ≤ start + size weight l := by
  obtain ⟨before, piece, after, rfl, -, -, rfl⟩ := h.split hrange
  simp only [size_append]
  omega

/-- The pieces come in order, and none reaches into the next. -/
theorem pairwise (h : Tiles weight blank P start l ranges) :
    ranges.Pairwise fun range range' => range.2 ≤ range'.1 := by
  induction h with
  | gap => exact List.Pairwise.nil
  | piece hgap hne hpiece hrest ih =>
    exact List.pairwise_cons.mpr ⟨fun range hrange => (hrest.bounds hrange).1, ih⟩

theorem nonempty (hpos : ∀ a, 0 < weight a) (h : Tiles weight blank P start l ranges)
    {range : Nat × Nat} (hrange : range ∈ ranges) : range.1 < range.2 := by
  obtain ⟨before, piece, after, -, hne, -, rfl⟩ := h.split hrange
  have := size_pos hpos hne
  simp only
  omega

/-- What is not blank is in a piece. -/
theorem covers (h : Tiles weight blank P start l ranges) {before after : List α} {a : α}
    (hl : l = before ++ a :: after) (ha : blank a = false) :
    ∃ range ∈ ranges, range.1 ≤ start + size weight before ∧
      start + size weight before + weight a ≤ range.2 := by
  have houtside : ∀ {before after : List α}, (before ++ a :: after).all blank = true → False := by
    intro before after hall
    have hblank := List.all_eq_true.mp hall a (by simp)
    rw [ha] at hblank
    cases hblank
  induction h generalizing before with
  | gap hgap =>
    rw [hl] at hgap
    exact (houtside hgap).elim
  | @piece start gap piece rest ranges hgap hne hpiece hrest ih =>
    rcases append_split hl with ⟨lost, rfl⟩ | ⟨skipped, rfl, hskipped⟩
    · exact (houtside hgap).elim
    · rcases append_split hskipped with ⟨inside, rfl⟩ | ⟨passed, rfl, hpassed⟩
      · refine ⟨_, List.mem_cons_self, ?_, ?_⟩
        · simp only [size_append]
          omega
        · simp only [size_append, size_cons]
          omega
      · obtain ⟨range, hmem, hle, hlt⟩ := ih hpassed
        refine ⟨range, List.mem_cons_of_mem _ hmem, ?_, ?_⟩
        · simpa only [size_append, Nat.add_assoc] using hle
        · simpa only [size_append, Nat.add_assoc] using hlt

end Tiles

/-- Of things in order, only one can hold a given point. -/
theorem eq_of_inside {β : Type} {f : β → Nat × Nat} {l : List β}
    (h : l.Pairwise fun x y => (f x).2 ≤ (f y).1) {x y : β} (hx : x ∈ l) (hy : y ∈ l)
    {point : Nat} (hinx : (f x).1 ≤ point ∧ point < (f x).2)
    (hiny : (f y).1 ≤ point ∧ point < (f y).2) : x = y := by
  induction h with
  | nil => cases hx
  | @cons first rest hfirst _ ih =>
    rcases List.mem_cons.mp hx with rfl | hxrest
    · rcases List.mem_cons.mp hy with rfl | hyrest
      · rfl
      · have := hfirst y hyrest
        omega
    · rcases List.mem_cons.mp hy with rfl | hyrest
      · have := hfirst x hxrest
        omega
      · exact ih hxrest hyrest

end MarieRs.Lib.Tiling
