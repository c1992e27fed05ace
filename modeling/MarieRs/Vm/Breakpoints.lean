import MarieRs.Lib.Bitset
import MarieRs.Vm.Machine

namespace MarieRs.Vm

namespace BreakpointSet

/-- Clears the bit, and says whether it was set. -/
def remove (set : BreakpointSet) (address : MemoryAddress) : Bool × BreakpointSet :=
  let (word, mask) := position address
  (set.bits word &&& mask != 0, ⟨Function.update set.bits word (set.bits word &&& ~~~mask)⟩)

def clear (_ : BreakpointSet) : BreakpointSet := ⟨fun _ => 0⟩

def isEmpty (set : BreakpointSet) : Bool :=
  (List.finRange 64).all fun word => set.bits word == 0

/-- Adds up `count_ones` of the words. -/
def len (set : BreakpointSet) : Nat :=
  ((List.finRange 64).map fun word => (set.bits word).cpop.toNat).sum

/-- The address of a bit of a word, which `MemoryAddress::new` finds in range. -/
def addressOf (word bit : Fin 64) : MemoryAddress :=
  BitVec.ofNatLT (word * 64 + bit) (by omega)

def iter (set : BreakpointSet) : List MemoryAddress :=
  (List.finRange 64).flatMap fun word =>
    ((List.finRange 64).filter fun bit : Fin 64 =>
      set.bits word &&& 1#64 <<< bit.val != 0).map (addressOf word)

def fromIter (addresses : List MemoryAddress) : BreakpointSet :=
  addresses.foldl (fun set address => (set.insert address).2) .new

end BreakpointSet

/-- A call that changes the set. -/
inductive BreakpointCall where
  | insert (address : MemoryAddress)
  | remove (address : MemoryAddress)
  | clear
  deriving DecidableEq, Repr

namespace BreakpointCall

/-- What the call answers, and the set it leaves. -/
def perform (set : BreakpointSet) : BreakpointCall → Option Bool × BreakpointSet
  | .insert address => (some (set.insert address).1, (set.insert address).2)
  | .remove address => (some (set.remove address).1, (set.remove address).2)
  | .clear => (none, set.clear)

/-- The same call on a set of addresses. -/
def abstractly (addresses : Finset MemoryAddress) :
    BreakpointCall → Option Bool × Finset MemoryAddress
  | .insert address => (some (decide (address ∉ addresses)), Insert.insert address addresses)
  | .remove address => (some (decide (address ∈ addresses)), addresses.erase address)
  | .clear => (none, ∅)

end BreakpointCall

/-- The answers to a sequence of calls, in order, and the state they lead to. -/
def performAll {σ : Type} (perform : σ → BreakpointCall → Option Bool × σ) :
    List BreakpointCall → σ → List (Option Bool) × σ
  | [], state => ([], state)
  | call :: calls, state =>
    let (answer, state) := perform state call
    let (answers, state) := performAll perform calls state
    (answer :: answers, state)

namespace BreakpointSet

open Lib.Bitset

theorem position_word (a : MemoryAddress) : (position a).1.val = a.toNat / 64 := rfl

theorem contains_eq (set : BreakpointSet) (a : MemoryAddress) :
    set.contains a = (set.bits (position a).1).getLsbD (a.toNat % 64) :=
  and_mask _ (Nat.mod_lt _ (by decide))

theorem toNat_addressOf (word bit : Fin 64) : (addressOf word bit).toNat = word * 64 + bit := rfl

theorem contains_addressOf (set : BreakpointSet) (word bit : Fin 64) :
    set.contains (addressOf word bit) = (set.bits word).getLsbD bit := by
  have hword : (position (addressOf word bit)).1 = word := by
    apply Fin.ext
    rw [position_word, toNat_addressOf]
    omega
  have hbit : (addressOf word bit).toNat % 64 = bit := by
    rw [toNat_addressOf]
    omega
  rw [contains_eq, hword, hbit]

theorem exists_addressOf (a : MemoryAddress) : ∃ word bit, addressOf word bit = a := by
  refine ⟨⟨a.toNat / 64, by omega⟩, ⟨a.toNat % 64, by omega⟩, ?_⟩
  apply BitVec.eq_of_toNat_eq
  rw [toNat_addressOf]
  simp only
  omega

/-- Two addresses with one place are one address. -/
theorem same_place {a b : MemoryAddress} (hword : (position a).1 = (position b).1) :
    a.toNat % 64 = b.toNat % 64 ↔ a = b := by
  have hdiv : a.toNat / 64 = b.toNat / 64 := congrArg Fin.val hword
  constructor
  · intro hmod
    apply BitVec.eq_of_toNat_eq
    omega
  · exact fun h => h ▸ rfl

theorem ext_contains {set set' : BreakpointSet} (h : ∀ a, set.contains a = set'.contains a) :
    set = set' := by
  have hbits : set.bits = set'.bits := by
    apply Lib.Bitset.ext
    intro word bit
    rw [← contains_addressOf, ← contains_addressOf, h]
  cases set
  cases set'
  cases hbits
  rfl

theorem contains_new (a : MemoryAddress) : new.contains a = false := by
  rw [contains_eq]
  exact BitVec.getLsbD_zero

/-- Only the word of the address is written, and in it only the bit of the address. -/
theorem contains_update {set set' : BreakpointSet} {a : MemoryAddress} {x : BitVec 64}
    {f : Bool → Bool} (hbits : set'.bits = Function.update set.bits (position a).1 x)
    (hx : ∀ j, x.getLsbD j = if j = a.toNat % 64 then f ((set.bits (position a).1).getLsbD j)
      else (set.bits (position a).1).getLsbD j) (b : MemoryAddress) :
    set'.contains b = if b = a then f (set.contains b) else set.contains b := by
  rw [contains_eq, contains_eq, hbits]
  by_cases hword : (position b).1 = (position a).1
  · rw [hword, Function.update_self, hx]
    simp only [same_place hword]
  · have hne : b ≠ a := fun h => hword (h ▸ rfl)
    rw [Function.update_of_ne hword, if_neg hne]

theorem contains_insert (set : BreakpointSet) (a b : MemoryAddress) :
    (set.insert a).2.contains b = (decide (b = a) || set.contains b) := by
  have hx : ∀ j, (set.bits (position a).1 ||| 1#64 <<< (a.toNat % 64)).getLsbD j =
      if j = a.toNat % 64 then true else (set.bits (position a).1).getLsbD j := by
    intro j
    rw [getLsbD_insert _ (Nat.mod_lt _ (by decide))]
    by_cases hj : j = a.toNat % 64
    · rw [if_pos hj, decide_eq_true hj, Bool.true_or]
    · rw [if_neg hj, decide_eq_false hj, Bool.false_or]
  rw [contains_update (f := fun _ => true) rfl hx]
  by_cases hb : b = a
  · rw [if_pos hb, decide_eq_true hb, Bool.true_or]
  · rw [if_neg hb, decide_eq_false hb, Bool.false_or]

theorem contains_remove (set : BreakpointSet) (a b : MemoryAddress) :
    (set.remove a).2.contains b = (decide (b ≠ a) && set.contains b) := by
  have hx : ∀ j, (set.bits (position a).1 &&& ~~~(1#64 <<< (a.toNat % 64))).getLsbD j =
      if j = a.toNat % 64 then false else (set.bits (position a).1).getLsbD j := by
    intro j
    rw [getLsbD_remove _ (Nat.mod_lt _ (by decide))]
    by_cases hj : j = a.toNat % 64
    · rw [if_pos hj, decide_eq_false (not_not.mpr hj), Bool.false_and]
    · rw [if_neg hj, decide_eq_true hj, Bool.true_and]
  rw [contains_update (f := fun _ => false) rfl hx]
  by_cases hb : b = a
  · rw [if_pos hb, decide_eq_false (not_not.mpr hb), Bool.false_and]
  · rw [if_neg hb, decide_eq_true hb, Bool.true_and]

theorem insert_answer (set : BreakpointSet) (a : MemoryAddress) :
    (set.insert a).1 = !set.contains a := by
  simp only [insert, contains, bne, Bool.not_not]

theorem remove_answer (set : BreakpointSet) (a : MemoryAddress) :
    (set.remove a).1 = set.contains a := rfl

theorem iter_eq (set : BreakpointSet) :
    set.iter = (elements set.bits).map fun p => addressOf p.1 p.2 := by
  rw [iter, elements, List.map_flatMap]
  congr 1
  funext word
  rw [List.map_map]
  congr 2
  funext bit
  exact and_mask _ bit.isLt

theorem mem_iter {set : BreakpointSet} {a : MemoryAddress} :
    a ∈ set.iter ↔ set.contains a = true := by
  rw [iter_eq, List.mem_map]
  constructor
  · rintro ⟨p, hp, rfl⟩
    rw [contains_addressOf]
    exact mem_elements.mp hp
  · intro ha
    obtain ⟨word, bit, rfl⟩ := exists_addressOf a
    rw [contains_addressOf] at ha
    exact ⟨(word, bit), mem_elements.mpr ha, rfl⟩

theorem iter_sorted (set : BreakpointSet) : set.iter.Pairwise (· < ·) := by
  rw [iter_eq, List.pairwise_map]
  refine (elements_sorted set.bits).imp fun {p q} hlt => ?_
  rw [BitVec.lt_def, toNat_addressOf, toNat_addressOf]
  rcases hlt with hword | ⟨hword, hbit⟩
  · have hword : p.1.val < q.1.val := hword
    omega
  · have hbit : p.2.val < q.2.val := hbit
    have hword : p.1.val = q.1.val := congrArg Fin.val hword
    omega

theorem len_eq (set : BreakpointSet) : set.len = set.iter.length := by
  rw [iter_eq, List.length_map, elements_length, len]

theorem isEmpty_iff {set : BreakpointSet} :
    set.isEmpty = true ↔ ∀ a, set.contains a = false := by
  simp only [isEmpty, List.all_eq_true, List.mem_finRange, true_implies, beq_iff_eq]
  constructor
  · intro h a
    rw [contains_eq, h]
    exact BitVec.getLsbD_zero
  · intro h word
    apply BitVec.eq_of_getLsbD_eq
    intro j hj
    rw [← contains_addressOf set word ⟨j, hj⟩, h]
    exact BitVec.getLsbD_zero.symm

theorem contains_fromIter (addresses : List MemoryAddress) (a : MemoryAddress) :
    (fromIter addresses).contains a = decide (a ∈ addresses) := by
  have hfold : ∀ set : BreakpointSet,
      (addresses.foldl (fun set address => (set.insert address).2) set).contains a =
        (decide (a ∈ addresses) || set.contains a) := by
    induction addresses with
    | nil =>
      intro set
      rfl
    | cons address addresses ih =>
      intro set
      rw [List.foldl_cons, ih, contains_insert, ← Bool.or_assoc]
      congr 1
      simp only [List.mem_cons, Bool.decide_or, Bool.or_comm]
  rw [fromIter, hfold, contains_new, Bool.or_false]

theorem fromIter_iter (set : BreakpointSet) : fromIter set.iter = set := by
  apply ext_contains
  intro a
  rw [contains_fromIter, Bool.eq_iff_iff, decide_eq_true_iff]
  exact mem_iter

/-- The bits are those of the addresses in the set. -/
def Represents (set : BreakpointSet) (addresses : Finset MemoryAddress) : Prop :=
  ∀ a, set.contains a = decide (a ∈ addresses)

theorem Represents.perform {set : BreakpointSet} {addresses : Finset MemoryAddress}
    (h : set.Represents addresses) (call : BreakpointCall) :
    (call.perform set).1 = (call.abstractly addresses).1 ∧
      (call.perform set).2.Represents (call.abstractly addresses).2 := by
  cases call with
  | insert address =>
    refine ⟨?_, fun a => ?_⟩
    · simp only [BreakpointCall.perform, BreakpointCall.abstractly, insert_answer, h address,
        decide_not]
    · simp only [BreakpointCall.perform, BreakpointCall.abstractly, contains_insert, h a,
        Finset.mem_insert, Bool.decide_or]
  | remove address =>
    refine ⟨?_, fun a => ?_⟩
    · simp only [BreakpointCall.perform, BreakpointCall.abstractly, remove_answer, h address]
    · simp only [BreakpointCall.perform, BreakpointCall.abstractly, contains_remove, h a,
        Finset.mem_erase, Bool.decide_and]
  | clear =>
    refine ⟨rfl, fun a => ?_⟩
    exact (contains_new a).trans (decide_eq_false (Finset.notMem_empty a)).symm

theorem Represents.performAll {set : BreakpointSet} {addresses : Finset MemoryAddress}
    (h : set.Represents addresses) (calls : List BreakpointCall) :
    (Vm.performAll BreakpointCall.perform calls set).1 =
        (Vm.performAll BreakpointCall.abstractly calls addresses).1 ∧
      (Vm.performAll BreakpointCall.perform calls set).2.Represents
        (Vm.performAll BreakpointCall.abstractly calls addresses).2 := by
  induction calls generalizing set addresses with
  | nil => exact ⟨rfl, h⟩
  | cons call calls ih =>
    obtain ⟨hanswer, hnext⟩ := h.perform call
    obtain ⟨hanswers, hend⟩ := ih hnext
    refine ⟨?_, hend⟩
    simp only [Vm.performAll]
    rw [hanswer, hanswers]

/-- Whatever calls have been made, the breakpoints are the set of addresses that they make. -/
theorem breakpoints_represent (calls : List BreakpointCall) :
    let bits := performAll BreakpointCall.perform calls .new
    let model := performAll BreakpointCall.abstractly calls ∅
    bits.1 = model.1 ∧ (∀ a, bits.2.contains a = true ↔ a ∈ model.2) ∧
      bits.2.len = model.2.card ∧ (bits.2.isEmpty = true ↔ model.2 = ∅) ∧
      bits.2.iter.Pairwise (· < ·) ∧ (∀ a, a ∈ bits.2.iter ↔ a ∈ model.2) ∧
      fromIter bits.2.iter = bits.2 := by
  intro bits model
  have hnew : new.Represents ∅ := by
    intro a
    rw [contains_new, decide_eq_false (Finset.notMem_empty a)]
  obtain ⟨hanswers, hrepresents⟩ := hnew.performAll calls
  have hcontains : ∀ a, bits.2.contains a = true ↔ a ∈ model.2 := by
    intro a
    rw [hrepresents a, decide_eq_true_iff]
  have hiter : ∀ a, a ∈ bits.2.iter ↔ a ∈ model.2 := fun a => mem_iter.trans (hcontains a)
  refine ⟨hanswers, hcontains, ?_, ?_, iter_sorted _, hiter, fromIter_iter _⟩
  · have hnodup : bits.2.iter.Nodup := (iter_sorted _).imp fun hlt => (BitVec.ne_of_lt hlt)
    have hset : bits.2.iter.toFinset = model.2 := by
      ext a
      rw [List.mem_toFinset, hiter]
    rw [len_eq, ← hset, List.toFinset_card_of_nodup hnodup]
  · rw [isEmpty_iff, Finset.eq_empty_iff_forall_notMem]
    refine forall_congr' fun a => ?_
    rw [← hcontains, Bool.not_eq_true]

end BreakpointSet

end MarieRs.Vm
