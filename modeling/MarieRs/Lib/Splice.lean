import Mathlib

/-! Replacing several ranges of a list at once. A reader walks over the list with a
position that grows with every element; an edit names the positions between which
its text goes. -/

namespace MarieRs.Lib.Splice

variable {P α : Type}

structure Edit (P α : Type) where
  start : P
  stop : P
  text : List α
  deriving DecidableEq

/-- Where the reader is after a list. -/
def walk (advance : P → α → P) (p : P) (l : List α) : P := l.foldl advance p

/-- A list cut into what stays and what is replaced. -/
inductive Piece (α : Type) where
  | keep (text : List α)
  | swap (old new : List α)

namespace Piece

def before : Piece α → List α
  | .keep text => text
  | .swap old _ => old

def after : Piece α → List α
  | .keep text => text
  | .swap _ new => new

@[simp] theorem before_keep (text : List α) : (keep text).before = text := rfl

@[simp] theorem after_keep (text : List α) : (keep text).after = text := rfl

/-- An edit replaces something. -/
def Proper : Piece α → Prop
  | .keep _ => True
  | .swap old _ => old ≠ []

end Piece

/-- The edits that the pieces from `p` on call for. -/
def editsOf (advance : P → α → P) : P → List (Piece α) → List (Edit P α)
  | _, [] => []
  | p, .keep text :: rest => editsOf advance (walk advance p text) rest
  | p, .swap old new :: rest =>
    ⟨p, walk advance p old, new⟩ :: editsOf advance (walk advance p old) rest

/-- An edit in the places of another reader. -/
def Edit.relocate {Q : Type} (place : P → Q) (e : Edit P α) : Edit Q α :=
  ⟨place e.start, place e.stop, e.text⟩

variable {advance : P → α → P}

@[simp] theorem walk_nil (p : P) : walk advance p [] = p := rfl

@[simp] theorem walk_cons (p : P) (a : α) (l : List α) :
    walk advance p (a :: l) = walk advance (advance p a) l := rfl

theorem walk_append (p : P) (l r : List α) :
    walk advance p (l ++ r) = walk advance (walk advance p l) r := List.foldl_append ..

theorem editsOf_append (p : P) (l r : List (Piece α)) :
    editsOf advance p (l ++ r) =
      editsOf advance p l ++ editsOf advance (walk advance p (l.flatMap Piece.before)) r := by
  induction l generalizing p with
  | nil => rfl
  | cons piece l ih =>
    rw [List.flatMap_cons, walk_append]
    cases piece with
    | keep text => exact ih _
    | swap old new => exact congrArg _ (ih _)

/-- Two readers of one list ask for the same edits, each in its own places. -/
theorem editsOf_relocate {Q : Type} {advance' : Q → α → Q} {p : P} {q : Q} {place : P → Q}
    {whole : List α} (hplace : ∀ before after, whole = before ++ after →
      place (walk advance p before) = walk advance' q before)
    {before after : List α} {pieces : List (Piece α)}
    (hwhole : whole = before ++ (pieces.flatMap Piece.before ++ after)) :
    editsOf advance' (walk advance' q before) pieces =
      (editsOf advance (walk advance p before) pieces).map (Edit.relocate place) := by
  induction pieces generalizing before with
  | nil => rfl
  | cons piece rest ih =>
    have hnext : whole = (before ++ piece.before) ++ (rest.flatMap Piece.before ++ after) := by
      simp only [hwhole, List.flatMap_cons, List.append_assoc]
    have hrest := ih hnext
    rw [walk_append, walk_append] at hrest
    cases piece with
    | keep text => exact hrest
    | swap old new =>
      have hstart := hplace _ _ hwhole
      have hstop : place (walk advance (walk advance p before) old) =
          walk advance' (walk advance' q before) old := by
        rw [← walk_append, ← walk_append]
        exact hplace _ _ hnext
      have hfirst : Edit.relocate place ⟨walk advance p before,
          walk advance (walk advance p before) old, new⟩ =
            ⟨walk advance' q before, walk advance' (walk advance' q before) old, new⟩ := by
        rw [Edit.relocate, hstart, hstop]
      rw [editsOf, editsOf, List.map_cons, hfirst]
      exact congrArg _ hrest

variable [LinearOrder P]

/-- What the edits that start at a position put there. -/
def insertedAt (edits : List (Edit P α)) (p : P) : List α :=
  (edits.filter fun e => e.start = p).flatMap Edit.text

def covers (edits : List (Edit P α)) (p : P) : Bool :=
  edits.any fun e => e.start ≤ p ∧ p < e.stop

/-- The list from `p` on, with all edits applied: their texts in, what they cover out. -/
def splice (advance : P → α → P) (edits : List (Edit P α)) : P → List α → List α
  | p, [] => insertedAt edits p
  | p, a :: rest =>
    insertedAt edits p ++ ((if covers edits p then [] else [a]) ++
      splice advance edits (advance p a) rest)

theorem walk_le (hadvance : ∀ p a, p < advance p a) (p : P) (l : List α) :
    p ≤ walk advance p l := by
  induction l generalizing p with
  | nil => exact le_rfl
  | cons a l ih => exact (hadvance p a).le.trans (ih (advance p a))

theorem walk_lt (hadvance : ∀ p a, p < advance p a) (p : P) {l : List α} (hl : l ≠ []) :
    p < walk advance p l := by
  cases l with
  | nil => exact absurd rfl hl
  | cons a l => exact (hadvance p a).trans_le (walk_le hadvance (advance p a) l)

theorem editsOf_start (hadvance : ∀ p a, p < advance p a) {pieces : List (Piece α)} {p : P}
    {e : Edit P α} (he : e ∈ editsOf advance p pieces) : p ≤ e.start := by
  induction pieces generalizing p with
  | nil => cases he
  | cons piece rest ih =>
    cases piece with
    | keep text => exact (walk_le hadvance p text).trans (ih he)
    | swap old new =>
      rcases List.mem_cons.mp he with rfl | he
      · exact le_rfl
      · exact (walk_le hadvance p old).trans (ih he)

theorem editsOf_sorted (hadvance : ∀ p a, p < advance p a) {pieces : List (Piece α)}
    (hproper : ∀ piece ∈ pieces, piece.Proper) (p : P) :
    (editsOf advance p pieces).Pairwise fun e e' => e.start < e'.start := by
  induction pieces generalizing p with
  | nil => exact .nil
  | cons piece rest ih =>
    have hrest := ih fun piece hpiece => hproper piece (List.mem_cons_of_mem _ hpiece)
    cases piece with
    | keep text => exact hrest _
    | swap old new =>
      refine .cons (fun e he => ?_) (hrest _)
      exact (walk_lt hadvance p (hproper _ List.mem_cons_self)).trans_le (editsOf_start hadvance he)

theorem insertedAt_eq_nil {edits : List (Edit P α)} {p : P} (h : ∀ e ∈ edits, e.start ≠ p) :
    insertedAt edits p = [] := by
  have hnone : edits.filter (fun e => e.start = p) = [] :=
    List.filter_eq_nil_iff.mpr fun e he => by simpa using h e he
  rw [insertedAt, hnone]
  rfl

/-- Edits before and after a stretch leave it alone. -/
theorem splice_keep (hadvance : ∀ p a, p < advance p a) {edits : List (Edit P α)} {p : P}
    (text rest : List α)
    (h : ∀ e ∈ edits, e.start < p ∧ e.stop ≤ p ∨ walk advance p text ≤ e.start) :
    splice advance edits p (text ++ rest) =
      text ++ splice advance edits (walk advance p text) rest := by
  induction text generalizing p with
  | nil => rfl
  | cons a text ih =>
    have hlt : p < walk advance p (a :: text) := walk_lt hadvance p (by simp)
    have hinserted : insertedAt edits p = [] := insertedAt_eq_nil fun e he => by
      rcases h e he with ⟨hstart, -⟩ | hstart
      · exact hstart.ne
      · exact (hlt.trans_le hstart).ne'
    have hcovers : covers edits p = false := by
      rw [covers, List.any_eq_false]
      intro e he hcover
      simp only [decide_eq_true_eq] at hcover
      rcases h e he with ⟨-, hstop⟩ | hstart
      · exact absurd hcover.2 (not_lt.mpr hstop)
      · exact absurd hcover.1 (not_le.mpr (hlt.trans_le hstart))
    rw [List.cons_append, splice, hinserted, hcovers, ih, walk_cons]
    · rfl
    · intro e he
      refine (h e he).imp_left fun hbefore => ?_
      exact ⟨hbefore.1.trans (hadvance p a), hbefore.2.trans (hadvance p a).le⟩

/-- Inside an edit everything goes. -/
theorem splice_cut (hadvance : ∀ p a, p < advance p a) {edits : List (Edit P α)} {p : P}
    (old rest : List α) {e : Edit P α} (he : e ∈ edits) (hstart : e.start < p)
    (hstop : e.stop = walk advance p old)
    (h : ∀ e' ∈ edits, e'.start < p ∨ walk advance p old ≤ e'.start) :
    splice advance edits p (old ++ rest) = splice advance edits (walk advance p old) rest := by
  induction old generalizing p with
  | nil => rfl
  | cons a old ih =>
    have hlt : p < walk advance p (a :: old) := walk_lt hadvance p (by simp)
    have hinserted : insertedAt edits p = [] := insertedAt_eq_nil fun e' he' => by
      rcases h e' he' with hbefore | hafter
      · exact hbefore.ne
      · exact (hlt.trans_le hafter).ne'
    have hcovers : covers edits p = true := by
      rw [covers, List.any_eq_true]
      exact ⟨e, he, by simpa using ⟨hstart.le, hstop ▸ hlt⟩⟩
    rw [List.cons_append, splice, hinserted, hcovers, if_pos rfl, List.nil_append,
      List.nil_append, ih (hstart.trans (hadvance p a)) hstop, walk_cons]
    exact fun e' he' => (h e' he').imp_left fun hbefore => hbefore.trans (hadvance p a)

/-- An edit at its place, between those before and those after it. -/
theorem splice_swap (hadvance : ∀ p a, p < advance p a) {earlier later : List (Edit P α)} {p : P}
    {old new rest : List α} (hold : old ≠ [])
    (hearlier : ∀ e ∈ earlier, e.start < p ∧ e.stop ≤ p)
    (hlater : ∀ e ∈ later, walk advance p old ≤ e.start) :
    splice advance (earlier ++ ⟨p, walk advance p old, new⟩ :: later) p (old ++ rest) =
      new ++ splice advance (earlier ++ ⟨p, walk advance p old, new⟩ :: later)
        (walk advance p old) rest := by
  have hlt : p < walk advance p old := walk_lt hadvance p hold
  have hmem : (⟨p, walk advance p old, new⟩ : Edit P α) ∈
      earlier ++ ⟨p, walk advance p old, new⟩ :: later := by simp
  have hinserted : insertedAt (earlier ++ ⟨p, walk advance p old, new⟩ :: later) p = new := by
    have hbefore : insertedAt earlier p = [] :=
      insertedAt_eq_nil fun e he => (hearlier e he).1.ne
    have hafter : insertedAt later p = [] :=
      insertedAt_eq_nil fun e he => (hlt.trans_le (hlater e he)).ne'
    rw [insertedAt] at hbefore hafter
    rw [insertedAt, List.filter_append, List.flatMap_append, hbefore,
      List.filter_cons_of_pos (by simp), List.flatMap_cons, hafter]
    simp
  have hcovers : covers (earlier ++ ⟨p, walk advance p old, new⟩ :: later) p = true :=
    List.any_eq_true.mpr ⟨_, hmem, by simpa using hlt⟩
  cases old with
  | nil => exact absurd rfl hold
  | cons a old =>
    rw [List.cons_append, splice, hinserted, hcovers, if_pos rfl, List.nil_append]
    refine congrArg _ (splice_cut hadvance old rest hmem (hadvance p a) rfl fun e he => ?_)
    rcases List.mem_append.mp he with he | he
    · exact .inl ((hearlier e he).1.trans (hadvance p a))
    · rcases List.mem_cons.mp he with rfl | he
      · exact .inl (hadvance p a)
      · exact .inr (hlater e he)

/-- Edits that lie before the first piece do nothing; the others do what the pieces say. -/
theorem splice_from (hadvance : ∀ p a, p < advance p a) {pieces : List (Piece α)}
    (hproper : ∀ piece ∈ pieces, piece.Proper) {earlier : List (Edit P α)} {p : P}
    (hearlier : ∀ e ∈ earlier, e.start < p ∧ e.stop ≤ p) :
    splice advance (earlier ++ editsOf advance p pieces) p (pieces.flatMap Piece.before) =
      pieces.flatMap Piece.after := by
  induction pieces generalizing p earlier with
  | nil =>
    simp only [editsOf, List.append_nil, List.flatMap_nil, splice]
    exact insertedAt_eq_nil fun e he => (hearlier e he).1.ne
  | cons piece rest ih =>
    have hrest : ∀ piece ∈ rest, piece.Proper :=
      fun piece hpiece => hproper piece (List.mem_cons_of_mem _ hpiece)
    cases piece with
    | keep text =>
      rw [List.flatMap_cons, List.flatMap_cons]
      refine (splice_keep hadvance text _ fun e he => ?_).trans ?_
      · rcases List.mem_append.mp he with he | he
        · exact .inl (hearlier e he)
        · exact .inr (editsOf_start hadvance he)
      · refine congrArg _ (ih hrest fun e he => ?_)
        have hle := walk_le hadvance p text
        exact ⟨(hearlier e he).1.trans_le hle, (hearlier e he).2.trans hle⟩
    | swap old new =>
      have hlt : p < walk advance p old := walk_lt hadvance p (hproper _ List.mem_cons_self)
      have hafter : ∀ e ∈ editsOf advance (walk advance p old) rest, walk advance p old ≤ e.start :=
        fun e he => editsOf_start hadvance he
      have hgone : ∀ e ∈ earlier ++ [⟨p, walk advance p old, new⟩],
          e.start < walk advance p old ∧ e.stop ≤ walk advance p old := by
        intro e he
        rcases List.mem_append.mp he with he | he
        · exact ⟨(hearlier e he).1.trans hlt, (hearlier e he).2.trans hlt.le⟩
        · rw [List.mem_singleton.mp he]
          exact ⟨hlt, le_rfl⟩
      have htail := ih hrest hgone
      rw [List.append_assoc, List.singleton_append] at htail
      rw [List.flatMap_cons, List.flatMap_cons, ← htail, editsOf]
      exact splice_swap hadvance (hproper _ List.mem_cons_self) hearlier hafter

theorem splice_congr {edits edits' : List (Edit P α)}
    (hinserted : ∀ p, insertedAt edits p = insertedAt edits' p)
    (hcovers : ∀ p, covers edits p = covers edits' p) (p : P) (l : List α) :
    splice advance edits p l = splice advance edits' p l := by
  induction l generalizing p with
  | nil => exact hinserted p
  | cons a l ih => rw [splice, splice, hinserted, hcovers, ih]

/-- In which order the edits of a list are given does not matter. -/
theorem splice_pieces (hadvance : ∀ p a, p < advance p a) {pieces : List (Piece α)}
    (hproper : ∀ piece ∈ pieces, piece.Proper) (p : P) {edits : List (Edit P α)}
    (hedits : edits.Perm (editsOf advance p pieces)) :
    splice advance edits p (pieces.flatMap Piece.before) = pieces.flatMap Piece.after := by
  have hsorted := editsOf_sorted hadvance hproper p
  have hnone : ∀ e ∈ ([] : List (Edit P α)), e.start < p ∧ e.stop ≤ p := by simp
  have hfrom := splice_from hadvance hproper hnone
  rw [List.nil_append] at hfrom
  rw [← hfrom]
  refine splice_congr (fun q => ?_) (fun q => hedits.any_eq) p _
  have hfilter := hedits.filter (fun e => e.start = q)
  have hone : ((editsOf advance p pieces).filter fun e => e.start = q).length ≤ 1 := by
    have hpairwise := hsorted.filter (fun e => e.start = q)
    have hall : ∀ e ∈ (editsOf advance p pieces).filter fun e => e.start = q, e.start = q := by
      intro e he
      simpa using (List.mem_filter.mp he).2
    generalize (editsOf advance p pieces).filter _ = l at hpairwise hall
    match l, hpairwise, hall with
    | [], _, _ => simp
    | [_], _, _ => simp
    | e :: e' :: l, hpairwise, hall =>
      have hlt := (List.pairwise_cons.mp hpairwise).1 e' List.mem_cons_self
      rw [hall e List.mem_cons_self, hall e' (by simp)] at hlt
      exact absurd hlt (lt_irrefl q)
  rw [insertedAt, insertedAt]
  generalize (editsOf advance p pieces).filter _ = l at hfilter hone
  match l, hfilter, hone with
  | [], hfilter, _ => rw [hfilter.eq_nil]
  | [e], hfilter, _ => rw [List.perm_singleton.mp hfilter]
  | _ :: _ :: _, _, hone => simp at hone

end MarieRs.Lib.Splice
