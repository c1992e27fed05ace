import Mathlib

/-! Triples over a machine that takes turns until it ends: what holds before, how many turns it
takes, and what holds after them. -/

namespace MarieRs.Lib.Triples

variable {S T E F ι : Type*}

/-- In `n` turns the machine comes from `s` to another state. -/
inductive Turns (turn : S → E ⊕ S) : Nat → S → S → Prop where
  | none (s : S) : Turns turn 0 s s
  | next {n : Nat} {s s' t : S} (hturn : turn s = .inr s') (h : Turns turn n s' t) :
    Turns turn (n + 1) s t

/-- After `n` turns from `s` the machine ends in `e`. -/
def Ends (turn : S → E ⊕ S) (n : Nat) (s : S) (e : E) : Prop :=
  ∃ t, Turns turn n s t ∧ turn t = .inl e

/-- Wherever `P` holds, `n` turns lead to where `Q` holds. -/
def Triple (turn : S → E ⊕ S) (P : S → Prop) (n : Nat) (Q : S → Prop) : Prop :=
  ∀ s, P s → ∃ t, Turns turn n s t ∧ Q t

variable {turn : S → E ⊕ S} {P Q R : S → Prop} {m n : Nat}

theorem Turns.trans {s t u : S} (h : Turns turn m s t) (h' : Turns turn n t u) :
    Turns turn (m + n) s u := by
  induction h with
  | none => rwa [Nat.zero_add]
  | next hturn h ih =>
    rw [Nat.add_right_comm]
    exact .next hturn (ih h')

theorem Turns.split {s u : S} (h : Turns turn (m + n) s u) :
    ∃ t, Turns turn m s t ∧ Turns turn n t u := by
  induction m generalizing s with
  | zero =>
    rw [Nat.zero_add] at h
    exact ⟨s, .none s, h⟩
  | succ m ih =>
    rw [Nat.add_right_comm] at h
    cases h with
    | next hturn h =>
      obtain ⟨t, ht, hu⟩ := ih h
      exact ⟨t, .next hturn ht, hu⟩

/-- A machine that ends is somewhere on its way after any turns it takes. -/
theorem Ends.rest {s t : S} {e : E} (h : Ends turn n s e) (ht : Turns turn m s t) :
    ∃ k, n = m + k ∧ Ends turn k t e := by
  induction ht generalizing n with
  | none => exact ⟨n, (Nat.zero_add n).symm, h⟩
  | next hturn ht ih =>
    obtain ⟨u, hu, hend⟩ := h
    cases hu with
    | none =>
      rw [hturn] at hend
      cases hend
    | next hturn' hu =>
      rw [hturn] at hturn'
      cases hturn'
      obtain ⟨k, rfl, hk⟩ := ih ⟨u, hu, hend⟩
      exact ⟨k, Nat.add_right_comm .., hk⟩

/-- A machine ends once only. -/
theorem Ends.unique {s : S} {e e' : E} (h : Ends turn n s e) (h' : Ends turn m s e') :
    n = m ∧ e = e' := by
  obtain ⟨t, ht, hend⟩ := h
  obtain ⟨k, rfl, u, hu, hend'⟩ := h'.rest ht
  cases hu with
  | none =>
    rw [hend] at hend'
    exact ⟨rfl, Sum.inl.inj hend'⟩
  | next hturn =>
    rw [hend] at hturn
    cases hturn

theorem Triple.seq (h : Triple turn P m R) (h' : Triple turn R n Q) : Triple turn P (m + n) Q := by
  intro s hs
  obtain ⟨t, ht, htR⟩ := h s hs
  obtain ⟨u, hu, huQ⟩ := h' t htR
  exact ⟨u, ht.trans hu, huQ⟩

/-- A loop: from each invariant the machine comes to the end, or to the invariant of something
lesser; the turns add up to the cost. -/
theorem Triple.loop (cost : ι → Nat) {Less : ι → ι → Prop} (hwell : WellFounded Less)
    {Inv : ι → S → Prop} (hbody : ∀ i, Triple turn (Inv i) (cost i) Q ∨
      ∃ j n, Less j i ∧ cost i = n + cost j ∧ Triple turn (Inv i) n (Inv j)) (i : ι) :
    Triple turn (Inv i) (cost i) Q := by
  induction i using hwell.induction with
  | _ i ih =>
    rcases hbody i with hends | ⟨j, n, hless, hcost, hround⟩
    · exact hends
    · rw [hcost]
      exact hround.seq (ih j hless)

/-- Where the machine ends, a triple tells when and how. -/
theorem Triple.ends {s : S} {way : E → Prop} (h : Triple turn P n Q) (hs : P s)
    (hend : ∀ t, Q t → ∃ e, turn t = .inl e ∧ way e) : ∃ e, Ends turn n s e ∧ way e := by
  obtain ⟨t, ht, htQ⟩ := h s hs
  obtain ⟨e, he, hway⟩ := hend t htQ
  exact ⟨e, ⟨t, ht, he⟩, hway⟩

/-- Related states take a turn each and stay related, or end alike. -/
structure Simulates (turn : S → E ⊕ S) (turn' : T → F ⊕ T) (Related : S → T → Prop)
    (Alike : E → F → Prop) : Prop where
  goes : ∀ {s t t'}, Related s t → turn' t = .inr t' → ∃ s', turn s = .inr s' ∧ Related s' t'
  ends : ∀ {s t f}, Related s t → turn' t = .inl f → ∃ e, turn s = .inl e ∧ Alike e f

variable {turn' : T → F ⊕ T} {Related : S → T → Prop} {Alike : E → F → Prop}

theorem Simulates.turns (h : Simulates turn turn' Related Alike) {s : S} {t t' : T}
    (hrelated : Related s t) (ht : Turns turn' n t t') :
    ∃ s', Turns turn n s s' ∧ Related s' t' := by
  induction ht generalizing s with
  | none => exact ⟨s, .none s, hrelated⟩
  | next hturn ht ih =>
    obtain ⟨s', hs, hrelated'⟩ := h.goes hrelated hturn
    obtain ⟨s'', hs', hrelated''⟩ := ih hrelated'
    exact ⟨s'', .next hs hs', hrelated''⟩

/-- What the machine does, the other one does. -/
theorem Simulates.followed (h : Simulates turn turn' Related Alike) {s s' : S} {t : T}
    (hrelated : Related s t) (hs : Turns turn n s s') :
    ∃ t', Turns turn' n t t' ∧ Related s' t' := by
  induction hs generalizing t with
  | none => exact ⟨t, .none t, hrelated⟩
  | next hturn hs ih =>
    rcases ht : turn' t with f | t'
    · obtain ⟨e, hend, -⟩ := h.ends hrelated ht
      rw [hturn] at hend
      cases hend
    · obtain ⟨s', hs', hrelated'⟩ := h.goes hrelated ht
      rw [hturn] at hs'
      cases hs'
      obtain ⟨t'', ht', hrelated''⟩ := ih hrelated'
      exact ⟨t'', .next ht ht', hrelated''⟩

/-- The two end after the same turns, and alike. -/
theorem Simulates.ends_iff (h : Simulates turn turn' Related Alike) {s : S} {t : T}
    (hrelated : Related s t) :
    (∀ e, Ends turn n s e → ∃ f, Ends turn' n t f ∧ Alike e f) ∧
      ∀ f, Ends turn' n t f → ∃ e, Ends turn n s e ∧ Alike e f := by
  constructor
  · rintro e ⟨s', hs, hend⟩
    obtain ⟨t', ht, hrelated'⟩ := h.followed hrelated hs
    rcases hnext : turn' t' with f | t''
    · obtain ⟨e', hend', halike⟩ := h.ends hrelated' hnext
      rw [hend] at hend'
      cases hend'
      exact ⟨f, ⟨t', ht, hnext⟩, halike⟩
    · obtain ⟨s'', hgoes, -⟩ := h.goes hrelated' hnext
      rw [hend] at hgoes
      cases hgoes
  · rintro f ⟨t', ht, hend⟩
    obtain ⟨s', hs, hrelated'⟩ := h.turns hrelated ht
    obtain ⟨e, hend', halike⟩ := h.ends hrelated' hend
    exact ⟨e, ⟨s', hs, hend'⟩, halike⟩

end MarieRs.Lib.Triples
