import Mathlib

/-! Loops that do the same work in passes of their own, cut up as each of them likes. -/

namespace MarieRs.Lib.Looping

variable {S T E F L : Type*}

/-- The loop comes from `s` to another state, with what is seen of it on the way. A pass
through the body shows one thing, or nothing. -/
inductive Comes (turn : S → E ⊕ (Option L × S)) (s : S) : List L → S → Prop where
  | here : Comes turn s [] s
  | pass {seen : List L} {shown : Option L} {s' s'' : S} (h : Comes turn s seen s')
    (hturn : turn s' = .inr (shown, s'')) : Comes turn s (seen ++ shown.toList) s''

/-- What is seen of the loop at some time. -/
def Shows (turn : S → E ⊕ (Option L × S)) (s : S) (seen : List L) : Prop :=
  ∃ s', Comes turn s seen s'

/-- The loop ends, after what is seen of it. -/
def Ends (turn : S → E ⊕ (Option L × S)) (s : S) (seen : List L) (e : E) : Prop :=
  ∃ s', Comes turn s seen s' ∧ turn s' = .inl e

variable {turn : S → E ⊕ (Option L × S)} {turn' : T → F ⊕ (Option L × T)}

theorem Comes.quiet {s s' s'' : S} {seen : List L} (h : Comes turn s seen s')
    (hturn : turn s' = .inr (none, s'')) : Comes turn s seen s'' := by
  have hpass := h.pass hturn
  rwa [Option.toList_none, List.append_nil] at hpass

theorem Comes.trans {s s' s'' : S} {seen rest : List L} (h : Comes turn s seen s')
    (hrest : Comes turn s' rest s'') : Comes turn s (seen ++ rest) s'' := by
  induction hrest with
  | here =>
    rw [List.append_nil]
    exact h
  | pass hrest hturn ih =>
    rw [← List.append_assoc]
    exact ih.pass hturn

/-- One pass from related states: the first loop goes on unseen and comes closer to its next
step, or both show the same and stay related, or both end alike. -/
inductive Progress (turn : S → E ⊕ (Option L × S)) (turn' : T → F ⊕ (Option L × T))
    (Related : S → T → Prop) (Closer : S → S → Prop) (way : E → F) (s : S) (t : T) : Prop where
  | waits {u : S} (hturn : turn s = .inr (none, u)) (hrelated : Related u t)
    (hcloser : Closer u s) : Progress turn turn' Related Closer way s t
  | works {l : Option L} {u : S} {v : T} (hturn : turn s = .inr (l, u))
    (hturn' : turn' t = .inr (l, v)) (hrelated : Related u v) :
    Progress turn turn' Related Closer way s t
  | ends {e : E} (hturn : turn s = .inl e) (hturn' : turn' t = .inl (way e)) :
    Progress turn turn' Related Closer way s t

variable {Related : S → T → Prop} {Closer : S → S → Prop} {way : E → F}

/-- What the first loop does, the second one does. -/
theorem comes_of_first
    (hprogress : ∀ s t, Related s t → Progress turn turn' Related Closer way s t)
    {s s' : S} {t : T} {seen : List L} (hrelated : Related s t) (h : Comes turn s seen s') :
    ∃ t', Comes turn' t seen t' ∧ Related s' t' := by
  induction h with
  | here => exact ⟨t, .here, hrelated⟩
  | pass h hturn ih =>
    obtain ⟨t', hcomes, hrelated'⟩ := ih
    cases hprogress _ _ hrelated' with
    | waits hwaits hnext hcloser =>
      rw [hturn] at hwaits
      cases hwaits
      rw [Option.toList_none, List.append_nil]
      exact ⟨t', hcomes, hnext⟩
    | works hworks hturn' hnext =>
      rw [hturn] at hworks
      cases hworks
      exact ⟨_, hcomes.pass hturn', hnext⟩
    | ends hends hturn' =>
      rw [hturn] at hends
      cases hends

/-- The first loop waits only so long before it does what the second one does next. -/
theorem catches_up (hwell : WellFounded Closer)
    (hprogress : ∀ s t, Related s t → Progress turn turn' Related Closer way s t)
    {s : S} {t : T} (hrelated : Related s t) :
    ∃ s', Comes turn s [] s' ∧
      ((∃ shown s'' t', turn s' = .inr (shown, s'') ∧ turn' t = .inr (shown, t') ∧
        Related s'' t') ∨ ∃ e, turn s' = .inl e ∧ turn' t = .inl (way e)) := by
  induction s using hwell.induction with
  | _ s ih =>
    cases hprogress s t hrelated with
    | @waits next hturn hnext hcloser =>
      obtain ⟨s', hcomes, hdone⟩ := ih next hcloser hnext
      exact ⟨s', (Comes.here.quiet hturn).trans hcomes, hdone⟩
    | works hturn hturn' hnext => exact ⟨s, .here, .inl ⟨_, _, _, hturn, hturn', hnext⟩⟩
    | ends hturn hturn' => exact ⟨s, .here, .inr ⟨_, hturn, hturn'⟩⟩

/-- What the second loop does, the first one does. -/
theorem comes_of_second (hwell : WellFounded Closer)
    (hprogress : ∀ s t, Related s t → Progress turn turn' Related Closer way s t)
    {s : S} {t t' : T} {seen : List L} (hrelated : Related s t) (h : Comes turn' t seen t') :
    ∃ s', Comes turn s seen s' ∧ Related s' t' := by
  induction h with
  | here => exact ⟨s, .here, hrelated⟩
  | pass h hturn' ih =>
    obtain ⟨s', hcomes, hrelated'⟩ := ih
    obtain ⟨s'', hwaits, ⟨shown, next, t'', hturn, hworks, hnext⟩ | ⟨e, hturn, hends⟩⟩ :=
      catches_up hwell hprogress hrelated'
    · rw [hturn'] at hworks
      cases hworks
      refine ⟨next, ?_, hnext⟩
      have hcomes' := hcomes.trans hwaits
      rw [List.append_nil] at hcomes'
      exact hcomes'.pass hturn
    · rw [hturn'] at hends
      cases hends

/-- Loops that make progress together show the same. -/
theorem shows_iff (hwell : WellFounded Closer)
    (hprogress : ∀ s t, Related s t → Progress turn turn' Related Closer way s t)
    {s : S} {t : T} {seen : List L} (hrelated : Related s t) :
    Shows turn s seen ↔ Shows turn' t seen := by
  constructor
  · rintro ⟨s', h⟩
    obtain ⟨t', h', -⟩ := comes_of_first hprogress hrelated h
    exact ⟨t', h'⟩
  · rintro ⟨t', h⟩
    obtain ⟨s', h', -⟩ := comes_of_second hwell hprogress hrelated h
    exact ⟨s', h'⟩

/-- Loops that make progress together end alike, after the same. -/
theorem ends_iff (hwell : WellFounded Closer)
    (hprogress : ∀ s t, Related s t → Progress turn turn' Related Closer way s t)
    {s : S} {t : T} {seen : List L} {f : F} (hrelated : Related s t) :
    (∃ e, Ends turn s seen e ∧ way e = f) ↔ Ends turn' t seen f := by
  constructor
  · rintro ⟨e, ⟨s', h, hend⟩, rfl⟩
    obtain ⟨t', h', hrelated'⟩ := comes_of_first hprogress hrelated h
    cases hprogress _ _ hrelated' with
    | waits hturn | works hturn =>
      rw [hend] at hturn
      cases hturn
    | ends hturn hturn' =>
      rw [hend] at hturn
      cases hturn
      exact ⟨t', h', hturn'⟩
  · rintro ⟨t', h, hend⟩
    obtain ⟨s', h', hrelated'⟩ := comes_of_second hwell hprogress hrelated h
    obtain ⟨s'', hwaits, ⟨shown, next, t'', -, hworks, -⟩ | ⟨e, hturn, hends⟩⟩ :=
      catches_up hwell hprogress hrelated'
    · rw [hend] at hworks
      cases hworks
    · rw [hend] at hends
      cases hends
      have hcomes := h'.trans hwaits
      rw [List.append_nil] at hcomes
      exact ⟨e, ⟨s'', hcomes, hturn⟩, rfl⟩

end MarieRs.Lib.Looping
