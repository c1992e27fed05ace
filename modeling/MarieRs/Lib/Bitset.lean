import Mathlib

/-! Sets that are kept as the bits of several words. -/

namespace MarieRs.Lib.Bitset

variable {n w : Nat}

theorem getLsbD_mask {i : Nat} (hi : i < w) (j : Nat) :
    (1#w <<< i).getLsbD j = decide (j = i) := by
  rw [BitVec.getLsbD_shiftLeft, BitVec.getLsbD_one]
  by_cases h : j = i
  · subst h
    simp only [hi, Nat.lt_irrefl, decide_false, decide_true, Bool.not_false, Nat.sub_self,
      Bool.true_and, Bool.and_true, decide_eq_true_eq]
    omega
  · simp only [h, decide_false, Bool.and_eq_false_iff, decide_eq_false_iff_not, Bool.not_eq_false',
      decide_eq_true_eq]
    omega

theorem and_mask (x : BitVec w) {i : Nat} (hi : i < w) :
    (x &&& 1#w <<< i != 0) = x.getLsbD i := by
  rw [Bool.eq_iff_iff, bne_iff_ne]
  constructor
  · intro hne
    by_contra hnot
    apply hne
    apply BitVec.eq_of_getLsbD_eq
    intro j _
    rw [BitVec.getLsbD_and, getLsbD_mask hi]
    refine Eq.trans ?_ BitVec.getLsbD_zero.symm
    by_cases hj : j = i
    · subst hj
      rw [Bool.eq_false_iff.mpr hnot, Bool.false_and]
    · rw [decide_eq_false hj, Bool.and_false]
  · intro hbit hzero
    have hget : (x &&& 1#w <<< i).getLsbD i = false :=
      (congrArg (BitVec.getLsbD · i) hzero).trans BitVec.getLsbD_zero
    rw [BitVec.getLsbD_and, getLsbD_mask hi, hbit, decide_eq_true rfl] at hget
    cases hget

theorem getLsbD_insert (x : BitVec w) {i : Nat} (hi : i < w) (j : Nat) :
    (x ||| 1#w <<< i).getLsbD j = (decide (j = i) || x.getLsbD j) := by
  rw [BitVec.getLsbD_or, getLsbD_mask hi, Bool.or_comm]

theorem getLsbD_remove (x : BitVec w) {i : Nat} (hi : i < w) (j : Nat) :
    (x &&& ~~~(1#w <<< i)).getLsbD j = (decide (j ≠ i) && x.getLsbD j) := by
  rw [BitVec.getLsbD_and, BitVec.getLsbD_not, getLsbD_mask hi, Bool.and_comm, decide_not]
  by_cases hj : j < w
  · rw [decide_eq_true hj, Bool.true_and]
  · rw [BitVec.getLsbD_of_ge x j (not_lt.mp hj), Bool.and_false, Bool.and_false]

/-- Counting the bits of a word is counting where they are. -/
theorem cpop_eq (x : BitVec w) :
    x.cpop.toNat = ((List.finRange w).filter fun j : Fin w => x.getLsbD j).length := by
  have hrec : ∀ k, x.cpopNatRec k 0 = ((List.range k).filter x.getLsbD).length := by
    intro k
    induction k with
    | zero => rfl
    | succ k ih =>
      rw [BitVec.cpopNatRec_succ, BitVec.cpopNatRec_eq, ih, List.range_succ, List.filter_append,
        List.length_append, Nat.zero_add, List.filter_singleton]
      cases x.getLsbD k <;> rfl
  rw [BitVec.toNat_cpop, hrec]
  rw [← List.map_coe_finRange_eq_range, List.filter_map, List.length_map]
  rfl

/-- The places of the bits, word by word and upwards in each. -/
def elements (words : Fin n → BitVec w) : List (Fin n × Fin w) :=
  (List.finRange n).flatMap fun i =>
    ((List.finRange w).filter fun j : Fin w => (words i).getLsbD j).map fun j => (i, j)

theorem mem_elements {words : Fin n → BitVec w} {p : Fin n × Fin w} :
    p ∈ elements words ↔ (words p.1).getLsbD p.2 = true := by
  simp only [elements, List.mem_flatMap, List.mem_finRange, List.mem_map, List.mem_filter,
    true_and]
  constructor
  · rintro ⟨i, j, hj, rfl⟩
    exact hj
  · exact fun h => ⟨p.1, p.2, h, rfl⟩

theorem elements_length (words : Fin n → BitVec w) :
    (elements words).length = ((List.finRange n).map fun i => (words i).cpop.toNat).sum := by
  simp only [elements, List.length_flatMap, List.length_map, cpop_eq]

/-- Places come in the order of their words, and within a word in the order of its bits. -/
theorem elements_sorted (words : Fin n → BitVec w) :
    (elements words).Pairwise fun p q => p.1 < q.1 ∨ p.1 = q.1 ∧ p.2 < q.2 := by
  rw [elements, List.pairwise_flatMap]
  constructor
  · intro i _
    rw [List.pairwise_map]
    have hsorted := (List.pairwise_lt_finRange w).filter (fun j : Fin w => (words i).getLsbD j)
    exact hsorted.imp fun hlt => .inr ⟨rfl, hlt⟩
  · apply (List.pairwise_lt_finRange n).imp
    intro i i' hlt p hp q hq
    obtain ⟨j, -, rfl⟩ := List.mem_map.mp hp
    obtain ⟨j', -, rfl⟩ := List.mem_map.mp hq
    exact .inl hlt

theorem ext {words words' : Fin n → BitVec w}
    (h : ∀ i (j : Fin w), (words i).getLsbD j = (words' i).getLsbD j) : words = words' := by
  funext i
  exact BitVec.eq_of_getLsbD_eq fun j hj => h i ⟨j, hj⟩

end MarieRs.Lib.Bitset
