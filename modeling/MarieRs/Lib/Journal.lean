import Mathlib

/-! A bounded undo journal over any transition system. `undoes e t s` says that
what entry `e` remembers leads from state `t` back to state `s`. -/

namespace MarieRs.Lib.Journal

variable {S E : Type*}

/-- The past of a state: the transitions made and not undone, oldest first, each
with the state it left and an entry that leads back to that state. -/
inductive Past (undoes : E → S → S → Prop) : List (S × E) → S → Prop
  | start (s : S) : Past undoes [] s
  | step {past : List (S × E)} {s t : S} {e : E} (hpast : Past undoes past s)
      (hback : undoes e t s) : Past undoes (past ++ [(s, e)]) t

theorem Past.last {undoes : E → S → S → Prop} {past : List (S × E)} {s t : S} {e : E}
    (h : Past undoes (past ++ [(s, e)]) t) : Past undoes past s ∧ undoes e t s := by
  generalize hq : past ++ [(s, e)] = q at h
  cases h with
  | start => simp at hq
  | step hpast hback =>
    obtain ⟨rfl, hlast⟩ := List.append_inj' hq rfl
    cases hlast
    exact ⟨hpast, hback⟩

/-- Appending to a journal of at most `limit` entries, which evicts the oldest
entry when it is full. -/
def append (limit : Nat) (entries : List E) (e : E) : List E :=
  if limit = 0 then entries
  else if entries.length = limit then entries.tail ++ [e]
  else entries ++ [e]

/-- Forgetting all but the newest `limit` entries. -/
def shrink (limit : Nat) (entries : List E) : List E := entries.drop (entries.length - limit)

/-- The journal keeps the newest entries of the past, within its limit. -/
structure Journalled (undoes : E → S → S → Prop) (limit : Nat) (entries : List E)
    (past : List (S × E)) (now : S) : Prop where
  suffix : entries <:+ past.map Prod.snd
  bounded : entries.length ≤ limit
  past : Past undoes past now

variable {undoes : E → S → S → Prop} {limit : Nat} {entries : List E} {past : List (S × E)}

theorem Journalled.start (now : S) : Journalled undoes limit [] [] now :=
  ⟨List.suffix_rfl, Nat.zero_le _, .start now⟩

/-- A transition is journalled, or leaves an empty journal behind when nothing
is to be kept. -/
theorem Journalled.append {s t : S} {e : E} (h : Journalled undoes limit entries past s)
    (hback : undoes e t s) :
    Journalled undoes limit (Journal.append limit entries e) (past ++ [(s, e)]) t := by
  have hsuffix : ∀ kept, kept <:+ entries → kept ++ [e] <:+ (past ++ [(s, e)]).map Prod.snd := by
    intro kept hkept
    obtain ⟨before, hbefore⟩ := hkept.trans h.suffix
    exact ⟨before, by simp [← hbefore]⟩
  have hlen := h.bounded
  refine ⟨?_, ?_, .step h.past hback⟩
  · unfold Journal.append
    split
    · rename_i hzero
      rw [List.eq_nil_of_length_eq_zero (by omega : entries.length = 0)]
      exact List.nil_suffix
    · split
      · exact hsuffix _ (List.tail_suffix entries)
      · exact hsuffix _ List.suffix_rfl
  · unfold Journal.append
    split
    · exact hlen
    · split
      · simp only [List.length_append, List.length_tail, List.length_singleton]
        omega
      · simp only [List.length_append, List.length_singleton]
        omega

/-- Forgetting old entries, by eviction or altogether, loses no accuracy. -/
theorem Journalled.forget {now : S} {limit' : Nat} {kept : List E}
    (h : Journalled undoes limit entries past now) (hkept : kept <:+ entries)
    (hlimit : kept.length ≤ limit') : Journalled undoes limit' kept past now :=
  ⟨hkept.trans h.suffix, hlimit, h.past⟩

theorem Journalled.shrink {now : S} (h : Journalled undoes limit entries past now)
    (limit' : Nat) : Journalled undoes limit' (Journal.shrink limit' entries) past now :=
  h.forget (List.drop_suffix _ _) (by simp only [Journal.shrink, List.length_drop]; omega)

/-- The newest entry belongs to the latest transition not undone, and undoing it
leads to the state that transition left. -/
theorem Journalled.back {now : S} {e : E} (h : Journalled undoes limit entries past now)
    (he : entries.getLast? = some e) :
    ∃ before s, past = before ++ [(s, e)] ∧ undoes e now s ∧
      Journalled undoes limit entries.dropLast before s := by
  have hentries : entries = entries.dropLast ++ [e] := by
    obtain ⟨es, rfl⟩ := List.getLast?_eq_some_iff.mp he
    rw [List.dropLast_concat]
  obtain ⟨pre, hpre⟩ := h.suffix
  rcases List.eq_nil_or_concat' past with hnil | ⟨before, ⟨s, e'⟩, rfl⟩
  · rw [hnil, List.map_nil, List.append_eq_nil_iff] at hpre
    rw [hpre.2] at he
    cases he
  · rw [hentries, List.map_append, ← List.append_assoc] at hpre
    obtain ⟨hinit, hlast⟩ := List.append_inj' hpre rfl
    cases hlast
    obtain ⟨hpast, hback⟩ := h.past.last
    have hlen := h.bounded
    refine ⟨before, s, rfl, hback, ⟨pre, hinit⟩, ?_, hpast⟩
    rw [List.length_dropLast]
    omega

/-- A journal of the newest of a past stays one. -/
theorem append_suffix {made : List E} (h : entries <:+ made) (hbounded : entries.length ≤ limit)
    (e : E) : Journal.append limit entries e <:+ made ++ [e] := by
  have hon : ∀ {kept : List E}, kept <:+ entries → kept ++ [e] <:+ made ++ [e] := by
    intro kept hkept
    obtain ⟨before, hbefore⟩ := hkept.trans h
    exact ⟨before, by rw [← List.append_assoc, hbefore]⟩
  unfold Journal.append
  split
  · have hnil : entries = [] := List.eq_nil_of_length_eq_zero (by omega)
    rw [hnil]
    exact List.nil_suffix
  · split
    · exact hon (List.tail_suffix entries)
    · exact hon List.suffix_rfl

/-- The way from one state to another, through transitions that are journalled. -/
inductive Path (undoes : E → S → S → Prop) : S → List (S × E) → S → Prop
  | refl (s : S) : Path undoes s [] s
  | step {rest : List (S × E)} {s t now : S} {e : E} (hback : undoes e t s)
      (hrest : Path undoes t rest now) : Path undoes s ((s, e) :: rest) now

theorem Path.append {front back : List (S × E)} {s t now : S} (hfront : Path undoes s front t)
    (hback : Path undoes t back now) : Path undoes s (front ++ back) now := by
  induction hfront with
  | refl => exact hback
  | step hundo hrest ih => exact .step hundo (ih hback)

theorem Path.split {front back : List (S × E)} {s now : S}
    (h : Path undoes s (front ++ back) now) :
    ∃ t, Path undoes s front t ∧ Path undoes t back now := by
  induction front generalizing s with
  | nil => exact ⟨s, .refl s, h⟩
  | cons first front ih =>
    cases h with
    | step hundo hrest =>
      obtain ⟨t, hfront, hback⟩ := ih hrest
      exact ⟨t, .step hundo hfront, hback⟩

/-- The latest transition is the one that was journalled last. -/
theorem Path.last {before : List (S × E)} {begun s now : S} {e : E}
    (h : Path undoes begun (before ++ [(s, e)]) now) :
    Path undoes begun before s ∧ undoes e now s := by
  obtain ⟨t, hbefore, hlast⟩ := h.split
  cases hlast with
  | step hundo hrest =>
    cases hrest
    exact ⟨hbefore, hundo⟩

/-- The journal keeps the newest entries of the past, and below them only entries that it
held before, as long as none of the past is forgotten. -/
structure Continued (undoes : E → S → S → Prop) (limit : Nat) (older : List E) (begun : S)
    (entries : List E) (past : List (S × E)) (now : S) : Prop where
  split : ∃ below own, entries = below ++ own ∧ below <:+ older ∧ own <:+ past.map Prod.snd ∧
    (below ≠ [] → own = past.map Prod.snd)
  bounded : entries.length ≤ limit
  path : Path undoes begun past now

variable {older : List E} {begun now : S}

theorem Continued.start (hbounded : older.length ≤ limit) :
    Continued undoes limit older begun older [] begun :=
  ⟨⟨older, [], (List.append_nil _).symm, List.suffix_rfl, List.suffix_rfl, fun _ => rfl⟩,
    hbounded, .refl begun⟩

/-- Forgetting the oldest entries keeps this. -/
theorem Continued.forget {limit' : Nat} {kept : List E}
    (h : Continued undoes limit older begun entries past now) (hkept : kept <:+ entries)
    (hlimit : kept.length ≤ limit') : Continued undoes limit' older begun kept past now := by
  obtain ⟨below, own, rfl, hbelow, hown, hall⟩ := h.split
  refine ⟨?_, hlimit, h.path⟩
  obtain ⟨front, hfront⟩ := hkept
  rcases List.append_eq_append_iff.mp hfront with ⟨left, rfl, rfl⟩ | ⟨dropped, -, rfl⟩
  · refine ⟨left, own, rfl, (List.suffix_append _ _).trans hbelow, hown, fun hne => hall ?_⟩
    exact List.append_ne_nil_of_right_ne_nil _ hne
  · exact ⟨[], kept, rfl, List.nil_suffix, (List.suffix_append _ _).trans hown,
      fun hne => absurd rfl hne⟩

/-- A transition is journalled on top, as far as there is room. -/
theorem Continued.append {t : S} {e : E}
    (h : Continued undoes limit older begun entries past now) (hback : undoes e t now) :
    Continued undoes limit older begun (Journal.append limit entries e) (past ++ [(now, e)]) t := by
  have hlen := h.bounded
  have hpath : Path undoes begun (past ++ [(now, e)]) t := h.path.append (.step hback (.refl t))
  have hon : ∀ {kept : List E}, kept <:+ entries →
      Continued undoes (kept.length + 1) older begun (kept ++ [e]) (past ++ [(now, e)]) t := by
    intro kept hkept
    obtain ⟨below, own, rfl, hbelow, hown, hall⟩ := (h.forget hkept le_rfl).split
    refine ⟨⟨below, own ++ [e], List.append_assoc _ _ _, hbelow, ?_, fun hne => ?_⟩, ?_, hpath⟩
    · obtain ⟨before, hbefore⟩ := hown
      exact ⟨before, by simp [← hbefore]⟩
    · rw [hall hne]
      simp
    · simp only [List.length_append, List.length_singleton]
      omega
  unfold Journal.append
  split
  · rename_i hzero
    have hnil : entries = [] := List.eq_nil_of_length_eq_zero (by omega)
    subst hnil
    exact ⟨⟨[], [], rfl, List.nil_suffix, List.nil_suffix, fun hne => absurd rfl hne⟩, hlen, hpath⟩
  · split
    · refine ⟨(hon (List.tail_suffix entries)).split, ?_, hpath⟩
      simp only [List.length_append, List.length_tail, List.length_singleton]
      omega
    · refine ⟨(hon List.suffix_rfl).split, ?_, hpath⟩
      simp only [List.length_append, List.length_singleton]
      omega

/-- As long as there is a past, what is on top of the journal undoes the latest of it. -/
theorem Continued.back {before : List (S × E)} {s : S} {e e' : E}
    (h : Continued undoes limit older begun entries (before ++ [(s, e')]) now)
    (he : entries.getLast? = some e) :
    e = e' ∧ undoes e now s ∧
      Continued undoes limit older begun entries.dropLast before s := by
  obtain ⟨below, own, rfl, hbelow, hown, hall⟩ := h.split
  obtain ⟨hpath, hundo⟩ := h.path.last
  have hlen := h.bounded
  rw [List.map_append, List.map_singleton] at hown hall
  rcases List.eq_nil_or_concat' own with rfl | ⟨init, last, rfl⟩
  · have hbelow : below = [] := by
      by_contra hne
      exact List.append_ne_nil_of_right_ne_nil _ (List.cons_ne_nil _ _) (hall hne).symm
    subst hbelow
    cases he
  · rw [← List.append_assoc, List.getLast?_concat, Option.some.injEq] at he
    subst he
    obtain ⟨front, hfront⟩ := hown
    rw [← List.append_assoc] at hfront
    obtain ⟨hinit, hlast⟩ := List.append_inj' hfront rfl
    have hlast : last = e' := (List.cons.inj hlast).1
    subst hlast
    refine ⟨rfl, hundo, ⟨below, init, ?_, hbelow, ⟨front, hinit⟩, fun hne => ?_⟩, ?_, hpath⟩
    · rw [← List.append_assoc, List.dropLast_concat]
    · exact (List.append_inj' (hall hne) rfl).1
    · rw [List.length_dropLast]
      omega

/-- A journal that was empty when the past began has nothing else in it. -/
theorem Continued.suffix (h : Continued undoes limit [] begun entries past now) :
    entries <:+ past.map Prod.snd := by
  obtain ⟨below, own, rfl, hbelow, hown, -⟩ := h.split
  rw [List.suffix_nil.mp hbelow]
  exact hown

end MarieRs.Lib.Journal
