import Mathlib

/-! Regular expressions as a backtracking matcher reads them. The matcher is
written with continuations: `run r m k` tries every way `r` can match from `m`,
in priority order, and returns the first on which `k` succeeds. -/

namespace MarieRs.Lib.Backtracking

/-- `α` is the alphabet and `γ` names the capture groups. -/
inductive Regex (α γ : Type) where
  | empty
  | start
  | stop
  | set (p : α → Bool)
  | seq (a b : Regex α γ)
  | opt (r : Regex α γ)
  | star (lazy : Bool) (r : Regex α γ)
  | group (g : γ) (r : Regex α γ)

namespace Regex

variable {α γ : Type}

def plus (lazy : Bool) (r : Regex α γ) : Regex α γ := seq r (star lazy r)

/-- One character from each set in turn. -/
def word : List (α → Bool) → Regex α γ
  | [] => empty
  | p :: ps => seq (set p) (word ps)

end Regex

/-- A partial match: how far it has come and what it has captured, latest first. -/
structure Match (γ : Type) where
  pos : Nat
  captures : List (γ × Nat × Nat)

variable {α γ β : Type}

def Match.capture [DecidableEq γ] (m : Match γ) (g : γ) : Option (Nat × Nat) :=
  m.captures.lookup g

def Match.advance (m : Match γ) (n : Nat) : Match γ := { m with pos := m.pos + n }

abbrev Kont (γ β : Type) := Match γ → Option β

/-- Repetition. A greedy loop tries to go round before it tries to leave, a lazy
one the other way; neither goes round without consuming anything. -/
def loop (lazy : Bool) (body : Match γ → Kont γ β → Option β) (k : Kont γ β) :
    Nat → Match γ → Option β
  | 0, m => k m
  | fuel + 1, m =>
    let again := body m fun m' => if m'.pos = m.pos then none else loop lazy body k fuel m'
    if lazy then (k m).or again else again.or (k m)

/-- A loop goes round at most once for each character that is left. -/
def run (input : List α) : Regex α γ → Match γ → Kont γ β → Option β
  | .empty, m, k => k m
  | .start, m, k => if m.pos = 0 then k m else none
  | .stop, m, k => if input.length ≤ m.pos then k m else none
  | .set p, m, k =>
    match input[m.pos]? with
    | some a => if p a then k (m.advance 1) else none
    | none => none
  | .seq a b, m, k => run input a m fun m' => run input b m' k
  | .opt r, m, k => (run input r m fun m' => if m'.pos = m.pos then none else k m').or (k m)
  | .star lazy r, m, k => loop lazy (run input r) k (input.length - m.pos) m
  | .group g r, m, k =>
    run input r m fun m' => k { m' with captures := (g, m.pos, m'.pos) :: m'.captures }

/-- The leftmost match, and of those the one of highest priority. -/
def exec (r : Regex α γ) (input : List α) : Option (Match γ) :=
  (List.range (input.length + 1)).findSome? fun i => run input r ⟨i, []⟩ some

section Equations
variable {input : List α} {m : Match γ} {k : Kont γ β}

theorem run_seq (a b : Regex α γ) :
    run input (.seq a b) m k = run input a m fun m' => run input b m' k := rfl

theorem run_opt (r : Regex α γ) :
    run input (.opt r) m k =
      (run input r m fun m' => if m'.pos = m.pos then none else k m').or (k m) := rfl

theorem run_group (g : γ) (r : Regex α γ) :
    run input (.group g r) m k =
      run input r m fun m' => k { m' with captures := (g, m.pos, m'.pos) :: m'.captures } := rfl

theorem run_set_of_mem {p : α → Bool} {a : α} (ha : input[m.pos]? = some a) (hp : p a = true) :
    run input (.set p) m k = k (m.advance 1) := by
  simp [run, ha, hp]

theorem run_set_of_not_mem {p : α → Bool} (h : ∀ a, input[m.pos]? = some a → p a = false) :
    run input (.set p) m k = none := by
  cases hi : input[m.pos]? with
  | none => simp [run, hi]
  | some a => simp [run, hi, h a hi]

theorem run_stop_of_end (h : input[m.pos]? = none) : run input .stop m k = k m := by
  simp [run, List.getElem?_eq_none_iff.mp h]

theorem run_stop_of_more {a : α} (ha : input[m.pos]? = some a) : run input .stop m k = none := by
  obtain ⟨hlt, -⟩ := List.getElem?_eq_some_iff.mp ha
  simp [run, hlt]

end Equations

theorem loop_map {δ : Type} (f : β → δ) (lazy : Bool) {body : Match γ → Kont γ β → Option β}
    {body' : Match γ → Kont γ δ → Option δ} (k : Kont γ β) (fuel : Nat) (m : Match γ)
    (hbody : ∀ m (k : Kont γ β), (body m k).map f = body' m fun m' => (k m').map f) :
    (loop lazy body k fuel m).map f = loop lazy body' (fun m' => (k m').map f) fuel m := by
  induction fuel generalizing m with
  | zero => rfl
  | succ fuel ih =>
    have hagain : (body m fun m' =>
          if m'.pos = m.pos then none else loop lazy body k fuel m').map f =
        body' m fun m' => if m'.pos = m.pos then none
          else loop lazy body' (fun m' => (k m').map f) fuel m' := by
      rw [hbody]
      congr
      funext m'
      split
      · rfl
      · exact ih m'
    simp only [loop]
    split <;> rw [Option.map_or, hagain]

/-- What is done with a match afterwards can be done in the continuation. -/
theorem run_map {δ : Type} (f : β → δ) (input : List α) (r : Regex α γ) (m : Match γ)
    (k : Kont γ β) : (run input r m k).map f = run input r m fun m' => (k m').map f := by
  induction r generalizing m k with
  | empty => rfl
  | start => simp only [run]; split <;> rfl
  | stop => simp only [run]; split <;> rfl
  | set p =>
    simp only [run]
    split
    · split <;> rfl
    · rfl
  | seq a b iha ihb => simp only [run, iha, ihb]
  | opt r ih =>
    simp only [run, Option.map_or, ih]
    congr
    funext m'
    split <;> rfl
  | star lazy r ih => exact loop_map f lazy k _ m ih
  | group g r ih => simp only [run, ih]

/-- An anchored expression can only match at the start. -/
theorem exec_anchored (r : Regex α γ) (input : List α) :
    exec (.seq .start r) input = run input r ⟨0, []⟩ some := by
  have hrest : ∀ n, ((List.range n).map Nat.succ).findSome?
      (fun i => run input (.seq .start r) ⟨i, []⟩ some) = none := by
    intro n
    rw [List.findSome?_eq_none_iff]
    intro i hi
    obtain ⟨j, -, rfl⟩ := List.mem_map.mp hi
    simp [run]
  rw [exec, List.range_succ_eq_map, List.findSome?_cons, hrest]
  cases h : run input (.seq .start r) ⟨0, []⟩ some with
  | none =>
    simp only [run, if_true] at h
    exact h.symm
  | some m =>
    simp only [run, if_true] at h
    exact h.symm

/-- `m'` continues `m`: it has come at least as far, still within the input, and
what it has captured since lies in between. -/
structure Extends (input : List α) (m m' : Match γ) : Prop where
  le : m.pos ≤ m'.pos
  inside : m.pos ≤ input.length → m'.pos ≤ input.length
  captures : ∃ new, m'.captures = new ++ m.captures ∧
    ∀ c ∈ new, m.pos ≤ c.2.1 ∧ c.2.1 ≤ c.2.2 ∧ c.2.2 ≤ m'.pos

theorem Extends.refl (input : List α) (m : Match γ) : Extends input m m :=
  ⟨le_rfl, id, [], rfl, by simp⟩

theorem Extends.trans {input : List α} {m m' m'' : Match γ} (h : Extends input m m')
    (h' : Extends input m' m'') : Extends input m m'' := by
  obtain ⟨new, hnew, hin⟩ := h.captures
  obtain ⟨new', hnew', hin'⟩ := h'.captures
  have hle := h.le
  have hle' := h'.le
  refine ⟨by omega, fun hm => h'.inside (h.inside hm), new' ++ new, ?_, ?_⟩
  · rw [hnew', hnew, List.append_assoc]
  · intro c hc
    rcases List.mem_append.mp hc with hc | hc
    · have := hin' c hc
      omega
    · have := hin c hc
      omega

theorem loop_some {input : List α} {lazy : Bool} {body : Match γ → Kont γ β → Option β}
    {k : Kont γ β} {fuel : Nat} {m : Match γ} {b : β} (h : loop lazy body k fuel m = some b)
    (hbody : ∀ {m : Match γ} {k : Kont γ β} {b : β}, body m k = some b →
      ∃ m', Extends input m m' ∧ k m' = some b) :
    ∃ m', Extends input m m' ∧ k m' = some b := by
  induction fuel generalizing m with
  | zero => exact ⟨m, .refl input m, h⟩
  | succ fuel ih =>
    have hsplit : (body m fun m' => if m'.pos = m.pos then none
        else loop lazy body k fuel m') = some b ∨ k m = some b := by
      simp only [loop] at h
      split at h <;> rcases Option.or_eq_some_iff.mp h with h | ⟨-, h⟩
      · exact .inr h
      · exact .inl h
      · exact .inl h
      · exact .inr h
    rcases hsplit with h | h
    · obtain ⟨m', hm', hk⟩ := hbody h
      split at hk
      · cases hk
      · obtain ⟨m'', hm'', hk⟩ := ih hk
        exact ⟨m'', hm'.trans hm'', hk⟩
    · exact ⟨m, .refl input m, h⟩

/-- A success comes from a continuation that was called on an extension. -/
theorem run_some {input : List α} {r : Regex α γ} {m : Match γ} {k : Kont γ β} {b : β}
    (h : run input r m k = some b) : ∃ m', Extends input m m' ∧ k m' = some b := by
  induction r generalizing m k b with
  | empty => exact ⟨m, .refl input m, h⟩
  | start | stop =>
    simp only [run] at h
    split at h
    · exact ⟨m, .refl input m, h⟩
    · cases h
  | set p =>
    simp only [run] at h
    split at h
    · rename_i a ha
      split at h
      · have hlt := (List.getElem?_eq_some_iff.mp ha).choose
        exact ⟨m.advance 1, ⟨Nat.le_succ _, fun _ => hlt, [], rfl, by simp⟩, h⟩
      · cases h
    · cases h
  | seq a b iha ihb =>
    obtain ⟨m', hm', hk⟩ := iha h
    obtain ⟨m'', hm'', hk⟩ := ihb hk
    exact ⟨m'', hm'.trans hm'', hk⟩
  | opt r ih =>
    rw [run_opt] at h
    rcases Option.or_eq_some_iff.mp h with h | ⟨-, h⟩
    · obtain ⟨m', hm', hk⟩ := ih h
      split at hk
      · cases hk
      · exact ⟨m', hm', hk⟩
    · exact ⟨m, .refl input m, h⟩
  | star lazy r ih => exact loop_some h ih
  | group g r ih =>
    obtain ⟨m', hm', hk⟩ := ih h
    obtain ⟨new, hnew, hin⟩ := hm'.captures
    refine ⟨⟨m'.pos, (g, m.pos, m'.pos) :: m'.captures⟩,
      ⟨hm'.le, hm'.inside, (g, m.pos, m'.pos) :: new, ?_, ?_⟩, hk⟩
    · simp only [hnew, List.cons_append]
    · intro c hc
      rcases List.mem_cons.mp hc with rfl | hc
      · exact ⟨le_rfl, hm'.le, le_rfl⟩
      · exact hin c hc

/-- What an execution captures are ranges of the input. -/
theorem exec_captures {r : Regex α γ} {input : List α} {m : Match γ}
    (h : exec r input = some m) {c : γ × Nat × Nat} (hc : c ∈ m.captures) :
    c.2.1 ≤ c.2.2 ∧ c.2.2 ≤ input.length := by
  obtain ⟨i, hi, hrun⟩ := List.exists_of_findSome?_eq_some h
  rw [List.mem_range] at hi
  obtain ⟨m', hm', hk⟩ := run_some hrun
  cases hk
  obtain ⟨new, hnew, hin⟩ := hm'.captures
  rw [hnew, List.append_nil] at hc
  have hend := hm'.inside (by simp only; omega)
  have := hin c hc
  omega

/-- How many characters from `i` on belong to `p`. -/
def runLength (p : α → Bool) (input : List α) (i : Nat) : Nat :=
  ((input.drop i).takeWhile p).length

variable {input : List α} {p q : α → Bool} {k : Kont γ β} {m : Match γ}

theorem runLength_of_pos {i : Nat} {a : α} (ha : input[i]? = some a) (hp : p a = true) :
    runLength p input i = runLength p input (i + 1) + 1 := by
  obtain ⟨hi, rfl⟩ := List.getElem?_eq_some_iff.mp ha
  rw [runLength, List.drop_eq_getElem_cons hi, List.takeWhile_cons_of_pos hp, List.length_cons]
  rfl

theorem runLength_of_neg {i : Nat} (h : ∀ a, input[i]? = some a → p a = false) :
    runLength p input i = 0 := by
  rw [runLength]
  cases hd : input.drop i with
  | nil => rfl
  | cons a rest =>
    have ha : input[i]? = some a := by
      rw [← Nat.add_zero i, ← List.getElem?_drop, hd]
      rfl
    rw [List.takeWhile_cons_of_neg (by simp [h a ha]), List.length_nil]

/-- Just past a run there is no further character of it. -/
theorem not_mem_past_run (i : Nat) {a : α} (ha : input[i + runLength p input i]? = some a) :
    p a = false := by
  induction hn : runLength p input i generalizing i with
  | zero =>
    rw [hn, Nat.add_zero] at ha
    by_contra hp
    rw [runLength_of_pos ha (by simpa using hp)] at hn
    omega
  | succ n ih =>
    cases hi : input[i]? with
    | none =>
      rw [runLength_of_neg (by simp [hi])] at hn
      omega
    | some b =>
      by_cases hb : p b = true
      · have hstep := runLength_of_pos hi hb
        refine ih (i + 1) ?_ (by omega)
        rw [← ha, hstep]
        congr 1
        omega
      · rw [runLength_of_neg (fun c hc => by rw [hi] at hc; cases hc; simpa using hb)] at hn
        omega

theorem mem_run {i j : Nat} (hj : j < runLength p input i) :
    ∃ a, input[i + j]? = some a ∧ p a = true := by
  induction j generalizing i with
  | zero =>
    cases hi : input[i]? with
    | none =>
      rw [runLength_of_neg (by simp [hi])] at hj
      omega
    | some a =>
      refine ⟨a, rfl, ?_⟩
      by_contra hp
      rw [runLength_of_neg (fun b hb => by rw [hi] at hb; cases hb; simpa using hp)] at hj
      omega
  | succ j ih =>
    cases hi : input[i]? with
    | none =>
      rw [runLength_of_neg (by simp [hi])] at hj
      omega
    | some a =>
      by_cases ha : p a = true
      · rw [runLength_of_pos hi ha] at hj
        rw [show i + (j + 1) = i + 1 + j by omega]
        exact ih (by omega)
      · rw [runLength_of_neg (fun b hb => by rw [hi] at hb; cases hb; simpa using ha)] at hj
        omega

theorem runLength_le (i : Nat) : runLength p input i ≤ input.length - i := by
  rw [runLength, ← List.length_drop]
  exact List.Sublist.length_le (List.takeWhile_sublist p)

theorem runLength_eq_succ {i : Nat} (h : runLength p input i ≠ 0) :
    runLength p input i = runLength p input (i + 1) + 1 := by
  obtain ⟨a, ha, hp⟩ := mem_run (Nat.pos_of_ne_zero h)
  exact runLength_of_pos ha hp

/-- From inside a run, its rest is left. -/
theorem runLength_inside {i j : Nat} (hj : j ≤ runLength p input i) :
    j + runLength p input (i + j) = runLength p input i := by
  induction j generalizing i with
  | zero => simp
  | succ j ih =>
    have hstep : runLength p input i = runLength p input (i + 1) + 1 :=
      runLength_eq_succ (by omega)
    have hrest : j + runLength p input (i + 1 + j) = runLength p input (i + 1) := ih (by omega)
    rw [show i + (j + 1) = i + 1 + j by omega]
    omega

@[simp] theorem advance_zero (m : Match γ) : m.advance 0 = m := rfl

@[simp] theorem advance_pos (m : Match γ) (n : Nat) : (m.advance n).pos = m.pos + n := rfl

@[simp] theorem advance_captures (m : Match γ) (n : Nat) :
    (m.advance n).captures = m.captures := rfl

@[simp] theorem advance_advance (m : Match γ) (i j : Nat) :
    (m.advance i).advance j = m.advance (i + j) := by
  simp only [Match.advance, Nat.add_assoc]

/-- Inside a run the loop may go round; at its end it cannot. -/
theorem loop_set (lazy : Bool) (fuel : Nat) (m : Match γ)
    (hfuel : runLength p input m.pos ≤ fuel) :
    loop lazy (run input (.set p)) k fuel m =
      (if lazy then List.range (runLength p input m.pos + 1)
        else (List.range (runLength p input m.pos + 1)).reverse).findSome?
          (fun j => k (m.advance j)) := by
  induction fuel generalizing m with
  | zero =>
    rw [Nat.le_zero.mp hfuel]
    cases lazy <;> simp [loop]
  | succ fuel ih =>
    cases ha : (input[m.pos]?).any p with
    | false =>
      have hstuck : ∀ a, input[m.pos]? = some a → p a = false := by
        intro a hi
        simpa [hi] using ha
      have hbody : ∀ k' : Kont γ β, run input (.set p) m k' = none := fun _ =>
        run_set_of_not_mem hstuck
      rw [runLength_of_neg hstuck]
      cases lazy <;> simp [loop, hbody]
    | true =>
      obtain ⟨a, hi, hp⟩ : ∃ a, input[m.pos]? = some a ∧ p a = true := by
        simpa [Option.any_eq_true] using ha
      have hrun := runLength_of_pos hi hp
      have hbody : ∀ k' : Kont γ β, run input (.set p) m k' = k' (m.advance 1) := fun _ =>
        run_set_of_mem hi hp
      have hround : loop lazy (run input (.set p)) k (fuel + 1) m =
          if lazy then (k m).or (loop lazy (run input (.set p)) k fuel (m.advance 1))
          else (loop lazy (run input (.set p)) k fuel (m.advance 1)).or (k m) := by
        simp [loop, hbody]
      rw [hround, ih (m.advance 1) (by rw [advance_pos]; omega), advance_pos, hrun,
        List.range_succ_eq_map (n := runLength p input (m.pos + 1) + 1)]
      have hshift : ∀ j, (m.advance 1).advance j = m.advance (Nat.succ j) := by
        intro j
        rw [advance_advance, Nat.succ_eq_add_one, Nat.add_comm]
      cases lazy with
      | true =>
        simp only [if_true, List.findSome?_cons, List.findSome?_map, advance_zero, hshift,
          Function.comp_def]
        cases k m <;> rfl
      | false =>
        simp only [Bool.false_eq_true, if_false, List.reverse_cons, List.findSome?_append,
          ← List.map_reverse, List.findSome?_map, List.findSome?_singleton, advance_zero, hshift,
          Function.comp_def]

theorem run_star_set (lazy : Bool) :
    run input (.star lazy (.set p)) m k =
      (if lazy then List.range (runLength p input m.pos + 1)
        else (List.range (runLength p input m.pos + 1)).reverse).findSome?
          (fun j => k (m.advance j)) :=
  loop_set lazy _ m (runLength_le m.pos)

/-- The continuation fails wherever the next character belongs to `p`. -/
def Refuses (input : List α) (p : α → Bool) (k : Kont γ β) : Prop :=
  ∀ m a, input[m.pos]? = some a → p a = true → k m = none

theorem refuses_set (hdisjoint : ∀ a, p a = true → q a = false) :
    Refuses input p fun m => run input (.set q) m k := by
  intro m a ha hp
  refine run_set_of_not_mem fun b hb => ?_
  rw [ha] at hb
  cases hb
  exact hdisjoint a hp

theorem refuses_seq {a b : Regex α γ}
    (ha : ∀ k' : Kont γ β, Refuses input p fun m => run input a m k') :
    Refuses input p fun m => run input (.seq a b) m k :=
  fun m c hc hp => ha (fun m' => run input b m' k) m c hc hp

theorem refuses_group {g : γ} {r : Regex α γ}
    (hr : ∀ k' : Kont γ β, Refuses input p fun m => run input r m k') :
    Refuses input p fun m => run input (.group g r) m k :=
  fun m c hc hp =>
    hr (fun m' => k { m' with captures := (g, m.pos, m'.pos) :: m'.captures }) m c hc hp

theorem refuses_stop : Refuses input p fun m => run input .stop m k := by
  intro m a ha _
  exact run_stop_of_more ha

theorem refuses_opt {r : Regex α γ}
    (hr : ∀ k' : Kont γ β, Refuses input p fun m => run input r m k')
    (hk : Refuses input p k) : Refuses input p fun m => run input (.opt r) m k := by
  intro m a ha hp
  have hround := hr (fun m' => if m'.pos = m.pos then none else k m') m a ha hp
  simp only [run, Option.or_eq_none_iff]
  exact ⟨hround, hk m a ha hp⟩

/-- The star takes its whole run, and only that. -/
theorem run_star_of_refuses (hk : Refuses input p k) :
    run input (.star false (.set p)) m k = k (m.advance (runLength p input m.pos)) := by
  rw [run_star_set, List.range_succ, List.reverse_append]
  simp only [Bool.false_eq_true, if_false, List.reverse_singleton, List.singleton_append,
    List.findSome?_cons]
  have hshorter : (List.range (runLength p input m.pos)).reverse.findSome?
      (fun j => k (m.advance j)) = none := by
    rw [List.findSome?_eq_none_iff]
    intro j hj
    obtain ⟨a, ha, hp⟩ := mem_run (List.mem_range.mp (List.mem_reverse.mp hj))
    exact hk _ a ha hp
  rw [hshorter]
  cases k (m.advance (runLength p input m.pos)) <;> rfl

theorem run_plus_set (lazy : Bool) :
    run input (.plus lazy (.set p)) m k =
      if runLength p input m.pos = 0 then none
      else run input (.star lazy (.set p)) (m.advance 1) k := by
  rw [Regex.plus, run_seq]
  split
  · rename_i hzero
    refine run_set_of_not_mem fun a ha => ?_
    by_contra hp
    rw [runLength_of_pos ha (by simpa using hp)] at hzero
    omega
  · rename_i hne
    obtain ⟨a, ha, hp⟩ := mem_run (Nat.pos_of_ne_zero hne)
    exact run_set_of_mem ha hp

/-- A greedy plus before something that refuses its characters: either the run
is empty and there is no match, or the whole of it is taken. -/
theorem run_plus_of_refuses (hk : Refuses input p k) :
    run input (.plus false (.set p)) m k =
      if runLength p input m.pos = 0 then none
      else k (m.advance (runLength p input m.pos)) := by
  rw [run_plus_set]
  split
  · rfl
  · rename_i hne
    rw [run_star_of_refuses hk, advance_advance, advance_pos, runLength_eq_succ hne, Nat.add_comm]

/-- A lazy plus tries the lengths of its run from the shortest up. -/
theorem run_plus_lazy :
    run input (.plus true (.set p)) m k =
      (List.range' 1 (runLength p input m.pos)).findSome? (fun j => k (m.advance j)) := by
  rw [run_plus_set]
  split
  · rename_i hzero
    rw [hzero]
    rfl
  · rename_i hne
    rw [run_star_set, runLength_eq_succ hne, List.range'_eq_map_range, List.findSome?_map]
    simp only [if_true, advance_advance, advance_pos, Function.comp_def]

/-- Each character of the word's length belongs to its set. -/
def fits : List (α → Bool) → List α → Bool
  | [], _ => true
  | p :: ps, a :: as => p a && fits ps as
  | _ :: _, [] => false

theorem run_word (ps : List (α → Bool)) (m : Match γ) :
    run input (.word ps) m k =
      if fits ps (input.drop m.pos) then k (m.advance ps.length) else none := by
  induction ps generalizing m with
  | nil => simp [Regex.word, run, fits]
  | cons p ps ih =>
    simp only [Regex.word, run]
    cases hi : input[m.pos]? with
    | none =>
      have hnil : input.drop m.pos = [] := by
        rw [List.drop_eq_nil_iff]
        simpa using hi
      simp [hnil, fits]
    | some a =>
      obtain ⟨hlt, rfl⟩ := List.getElem?_eq_some_iff.mp hi
      rw [List.drop_eq_getElem_cons hlt]
      simp only [fits, ih, advance_pos, advance_advance, List.length_cons, Bool.and_eq_true]
      by_cases hp : p input[m.pos] = true <;> simp [hp, Nat.add_comm]

end MarieRs.Lib.Backtracking
