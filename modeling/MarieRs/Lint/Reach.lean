import MarieRs.Asm.Layout
import MarieRs.Lint.Hazards

namespace MarieRs.Lint

open Asm (Assembly Item Lint LintContext)
open Lib.Worklist (mark mark_iff markWithin mark_of_within)
open Relation (ReflTransGen)

namespace Cfg

variable {cfg : Cfg} {assembly : Assembly}

theorem indexOf_eq_some {address : MemoryAddress} {index : Nat} :
    cfg.indexOf address = some index ↔
      address.toNat = cfg.origin.toNat + index ∧ index < cfg.kinds.length := by
  have hindex : ∀ a : MemoryAddress, a.index = a.toNat := fun _ => rfl
  rw [indexOf, Option.filter_eq_some_iff, decide_eq_true_eq]
  refine and_congr_left fun _ => ?_
  split
  · rename_i hle
    rw [hindex, hindex] at hle
    rw [Option.some.injEq, hindex, hindex]
    omega
  · rename_i hle
    rw [hindex, hindex] at hle
    simp only [reduceCtorEq, false_iff]
    omega

/-- Edges stay inside the graph. -/
theorem edges_lt {index j : Nat} (h : Edge.word j ∈ cfg.edges assembly index) :
    j < cfg.kinds.length := by
  have hstep : ∀ offset, Edge.word j = cfg.step index offset → j < cfg.kinds.length := by
    intro offset heq
    rw [step] at heq
    split at heq
    · cases heq
      assumption
    · cases heq
  have htarget : ∀ address, Edge.word j = cfg.target address → j < cfg.kinds.length := by
    intro address heq
    cases address with
    | none => cases heq
    | some address =>
      rw [target] at heq
      split at heq
      · rename_i hindex
        cases heq
        exact (indexOf_eq_some.mp hindex).2
      · cases heq
  simp only [edges] at h
  repeat' split at h
  all_goals simp only [List.mem_cons, List.not_mem_nil, or_false] at h
  case _ => exact htarget _ h
  case _ => exact htarget _ h
  case _ => cases h
  case _ => exact h.elim (hstep 1) (hstep 2)
  case _ => exact hstep 1 h

theorem mem_next {index j : Nat} :
    j ∈ cfg.next assembly index ↔
      cfg.kinds[index]? ≠ some .data ∧ Edge.word j ∈ cfg.edges assembly index := by
  rw [next]
  split
  · simp_all
  · rename_i hkind
    simp only [List.mem_filterMap, hkind, not_false_iff, ne_eq, true_and]
    constructor
    · rintro ⟨edge, hedge, hindex⟩
      cases edge with
      | word index =>
        cases hindex
        exact hedge
      | outside | offEnd | unknown => cases hindex
    · exact fun hedge => ⟨.word j, hedge, rfl⟩

variable (assembly) in
/-- Reachability is having a path from the first word. -/
theorem isReachable_iff (index : Nat) :
    (new assembly).isReachable index = true ↔ assembly.program.items ≠ [] ∧
      ReflTransGen (fun i j => j ∈ (new assembly).next assembly i) 0 index := by
  have hroots : ∀ root ∈ (if assembly.program.items = [] then [] else [0]),
      root < assembly.program.items.length := by
    intro root hroot
    split at hroot
    · cases hroot
    · rename_i hne
      rw [List.mem_singleton.mp hroot]
      exact List.length_pos_iff.mpr hne
  have hnext : ∀ i, ∀ j ∈ (new assembly).next assembly i, j < assembly.program.items.length := by
    intro i j hj
    have hlt := edges_lt (mem_next.mp hj).2
    rwa [show (new assembly).kinds.length = assembly.program.items.length from
      List.length_map ..] at hlt
  have hmark := mark_iff hroots hnext index
  have hreachable : (new assembly).reachable = mark ((new assembly).next assembly)
      (List.replicate assembly.program.items.length false)
      (if assembly.program.items = [] then [] else [0]) := by
    simp only [new, markReachable, List.isEmpty_replicate]
    congr 1
    cases assembly.program.items with
    | nil => rfl
    | cons item items => rfl
  have hget : (new assembly).isReachable index = true ↔
      (new assembly).reachable[index]? = some true := by
    rw [isReachable]
    cases (new assembly).reachable[index]? <;> simp
  rw [hget, hreachable, hmark]
  split_ifs with hnil
  · simp [hnil]
  · simp [hnil]

theorem isReachable_start (h : assembly.program.items ≠ []) :
    (new assembly).isReachable 0 = true :=
  (isReachable_iff assembly 0).mpr ⟨h, .refl⟩

theorem isReachable_next {i j : Nat} (h : (new assembly).isReachable i = true)
    (hkind : (new assembly).kind i = some .code)
    (hedge : Edge.word j ∈ (new assembly).edges assembly i) :
    (new assembly).isReachable j = true := by
  obtain ⟨hne, hpath⟩ := (isReachable_iff assembly i).mp h
  refine (isReachable_iff assembly j).mpr ⟨hne, hpath.tail (mem_next.mpr ⟨?_, hedge⟩)⟩
  rw [← kind, hkind]
  simp

theorem kind_new (i : Nat) :
    (new assembly).kind i = (assembly.program.items[i]?).map classify := by
  simp [kind, new, markReachable]

theorem mem_reachableIndices {i : Nat} (h : (new assembly).isReachable i = true) :
    i ∈ (new assembly).reachableIndices := by
  refine List.mem_filter.mpr ⟨List.mem_range.mpr ?_, h⟩
  by_contra hle
  rw [isReachable, List.getElem?_eq_none (not_lt.mp hle)] at h
  cases h

/-- The graph, from a search that ends within `fuel` steps. -/
theorem new_of_within (assembly : Assembly) (fuel : Nat) {marks : List Bool}
    (h : markWithin (Cfg.next ⟨assembly.program.items.map classify,
        List.replicate assembly.program.items.length false,
        !assembly.program.items.any isIndirect, assembly.origin⟩ assembly) fuel
      (List.replicate assembly.program.items.length false)
      (if (List.replicate assembly.program.items.length false).isEmpty then [] else [0]) =
        some marks) :
    new assembly = ⟨assembly.program.items.map classify, marks,
      !assembly.program.items.any isIndirect, assembly.origin⟩ := by
  rw [new, markReachable, mark_of_within h]

/-- What is reachable is a word of the program. -/
theorem isReachable_item {i : Nat} (h : (new assembly).isReachable i = true) :
    ∃ item, assembly.program.items[i]? = some item := by
  obtain ⟨hne, hpath⟩ := (isReachable_iff assembly i).mp h
  have hlt : i < assembly.program.items.length := by
    cases hpath with
    | refl => exact List.length_pos_iff.mpr hne
    | tail _ hstep =>
      have := edges_lt (mem_next.mp hstep).2
      simpa [new, markReachable] using this
  exact ⟨_, List.getElem?_eq_getElem hlt⟩

end Cfg

section

variable {cx : LintContext}

theorem overItems_eq_nil {indices : List Nat} {check : Nat → Item → List Asm.Diagnostic} :
    overItems cx indices check = [] ↔
      ∀ i ∈ indices, ∀ item, cx.assembly.program.items[i]? = some item → check i item = [] := by
  rw [overItems, List.flatMap_eq_nil_iff]
  refine forall_congr' fun i => forall_congr' fun _ => ?_
  cases cx.assembly.program.items[i]? with
  | none => simp
  | some item => simp

theorem graph_new (hok : cx.assembly.succeeded = true) (hne : cx.assembly.program.items ≠ []) :
    graph cx = some (.new cx.assembly) := by
  rw [graph, if_neg]
  simp [hok, hne]

variable (hok : cx.assembly.succeeded = true) (hne : cx.assembly.program.items ≠ [])
include hok hne

theorem fallsOffEnd_silent (h : FallsOffEnd.run cx = []) {i : Nat}
    (hi : (Cfg.new cx.assembly).isReachable i = true)
    (hkind : (Cfg.new cx.assembly).kind i = some .code) :
    Edge.offEnd ∉ (Cfg.new cx.assembly).edges cx.assembly i := by
  obtain ⟨item, hitem⟩ := Cfg.isReachable_item hi
  simp only [FallsOffEnd, graph_new hok hne] at h
  have hcheck := overItems_eq_nil.mp h i (Cfg.mem_reachableIndices hi) item hitem
  rw [if_neg (not_not.mpr hkind)] at hcheck
  intro hedge
  rw [if_neg (not_not.mpr hedge)] at hcheck
  cases hcheck

theorem fallsIntoData_silent (h : FallsIntoData.run cx = []) {i : Nat}
    (hi : (Cfg.new cx.assembly).isReachable i = true) :
    (Cfg.new cx.assembly).kind i = some .code := by
  obtain ⟨item, hitem⟩ := Cfg.isReachable_item hi
  simp only [FallsIntoData, graph_new hok hne] at h
  have hcheck := overItems_eq_nil.mp h i (Cfg.mem_reachableIndices hi) item hitem
  have hsome : (Cfg.new cx.assembly).kind i = some (classify item) := by
    rw [Cfg.kind_new, hitem, Option.map_some]
  cases hclass : classify item with
  | code => rw [hsome, hclass]
  | data =>
    rw [if_neg (not_not.mpr (by rw [hsome, hclass]))] at hcheck
    cases hcheck

theorem jumpsOutside_silent (h : JumpsOutsideProgram.run cx = []) {i : Nat}
    (hi : (Cfg.new cx.assembly).isReachable i = true) (address : MemoryAddress) :
    Edge.outside address ∉ (Cfg.new cx.assembly).edges cx.assembly i := by
  obtain ⟨item, hitem⟩ := Cfg.isReachable_item hi
  simp only [JumpsOutsideProgram, graph_new hok hne] at h
  have hcheck := overItems_eq_nil.mp h i (Cfg.mem_reachableIndices hi) item hitem
  intro hedge
  cases List.flatMap_eq_nil_iff.mp hcheck _ hedge

omit hok hne in
theorem slotOf_eq {i : Nat} {word : Word} (hword : cx.assembly.words[i]? = some word) {slot : Nat}
    (hslot : (Cfg.new cx.assembly).indexOf (MemoryAddress.newMasked word) = some slot) :
    slotOf cx (.new cx.assembly) i = some (MemoryAddress.newMasked word, slot) := by
  simp [slotOf, hword, hslot]

omit hok hne in
/-- A finding about a word that is there is reported. -/
theorem overItems_slot {slot : Nat} {kind : Kind} {finding : Item → Asm.Diagnostic}
    (hkind : (Cfg.new cx.assembly).kind slot = some kind) :
    overItems cx [slot] (fun _ victim => [finding victim]) ≠ [] := by
  rw [Cfg.kind_new] at hkind
  obtain ⟨victim, hvictim, -⟩ := Option.map_eq_some_iff.mp hkind
  intro hnil
  cases overItems_eq_nil.mp hnil slot List.mem_cons_self victim hvictim

theorem jnsOverwritesCode_silent (h : JnsOverwritesCode.run cx = []) {i : Nat} {item : Item}
    (hitem : cx.assembly.program.items[i]? = some item)
    (hopcode : effectiveOpcode item = some .jnS) {word : Word}
    (hword : cx.assembly.words[i]? = some word) {slot : Nat}
    (hslot : (Cfg.new cx.assembly).indexOf (MemoryAddress.newMasked word) = some slot) :
    (Cfg.new cx.assembly).kind slot ≠ some .code := by
  have hrange := List.mem_range.mpr (List.getElem?_eq_some_iff.mp hitem).1
  simp only [JnsOverwritesCode, graph_new hok hne] at h
  have hcheck := overItems_eq_nil.mp h i hrange item hitem
  rw [if_neg (not_not.mpr hopcode), slotOf_eq hword hslot] at hcheck
  intro hkind
  simp only [hkind, ne_eq, not_true, if_false] at hcheck
  exact overItems_slot hkind hcheck

theorem selfModifyingCode_silent (h : SelfModifyingCode.run cx = []) {i : Nat} {item : Item}
    (hitem : cx.assembly.program.items[i]? = some item)
    (hopcode : effectiveOpcode item = some .store) {word : Word}
    (hword : cx.assembly.words[i]? = some word) {slot : Nat}
    (hslot : (Cfg.new cx.assembly).indexOf (MemoryAddress.newMasked word) = some slot)
    (hkind : (Cfg.new cx.assembly).kind slot = some .code) :
    (Cfg.new cx.assembly).isReachable slot = false := by
  have hrange := List.mem_range.mpr (List.getElem?_eq_some_iff.mp hitem).1
  simp only [SelfModifyingCode, graph_new hok hne] at h
  have hcheck := overItems_eq_nil.mp h i hrange item hitem
  rw [if_neg (not_not.mpr hopcode), slotOf_eq hword hslot] at hcheck
  cases hreachable : (Cfg.new cx.assembly).isReachable slot with
  | false => rfl
  | true =>
    simp only [hkind, hreachable, ne_eq, not_true, or_self, if_false] at hcheck
    exact absurd hcheck (overItems_slot hkind)

end

end MarieRs.Lint
