import MarieRs.Lint.Reach

namespace MarieRs.Lint

open Asm (Assembly)
open Lib.Worklist (markChecked markChecked_eq)
open Relation (ReflTransGen)

namespace Cfg

variable {cfg : Cfg} {assembly : Assembly}

theorem next_length (cfg : Cfg) (assembly : Assembly) (index : Nat) :
    (cfg.next assembly index).length ≤ 2 := by
  have hedges : (cfg.edges assembly index).length ≤ 2 := by
    simp only [edges]
    repeat' split
    all_goals simp
  rw [next]
  split
  · exact Nat.zero_le 2
  · exact (List.length_filterMap_le _ _).trans hedges

/-- Control goes on from one word to another. -/
def GoesOn (cfg : Cfg) (assembly : Assembly) (i j : Nat) : Prop :=
  cfg.kind i = some .code ∧ Edge.word j ∈ cfg.edges assembly i

theorem mem_next_new {i j : Nat} :
    j ∈ (new assembly).next assembly i ↔ (new assembly).GoesOn assembly i j := by
  rw [mem_next, GoesOn, kind]
  refine and_congr_left fun hedge => ?_
  have hitem : ∃ item, assembly.program.items[i]? = some item := by
    rw [edges] at hedge
    split at hedge
    · cases hedge
    · exact ⟨_, by assumption⟩
  obtain ⟨item, hitem⟩ := hitem
  have hkind : (new assembly).kind i = (assembly.program.items[i]?).map classify := kind_new i
  rw [hitem, Option.map_some, kind] at hkind
  rw [hkind]
  cases classify item <;> simp

/-- A finite path, word by word. -/
def IsPath (cfg : Cfg) (assembly : Assembly) (path : List Nat) (i : Nat) : Prop :=
  path.head? = some 0 ∧ path.getLast? = some i ∧ path.IsChain (cfg.GoesOn assembly)

theorem isPath_iff {i : Nat} :
    (∃ path, cfg.IsPath assembly path i) ↔ ReflTransGen (cfg.GoesOn assembly) 0 i := by
  constructor
  · rintro ⟨path, hhead, hlast, hchain⟩
    cases path with
    | nil => cases hhead
    | cons first rest =>
      cases hhead
      rw [List.getLast?_eq_getLast_of_ne_nil (List.cons_ne_nil _ _), Option.some.injEq] at hlast
      exact List.relationReflTransGen_of_exists_isChain_cons rest hchain hlast
  · intro h
    obtain ⟨rest, hchain, hlast⟩ := List.exists_isChain_cons_of_relationReflTransGen h
    refine ⟨0 :: rest, rfl, ?_, hchain⟩
    rw [List.getLast?_eq_getLast_of_ne_nil (List.cons_ne_nil _ _), hlast]

/-- The search ends, within two rounds for each word and one for the first, looks up no
index that is out of bounds, and marks just the words with a path from the first one. -/
theorem reachable_paths (assembly : Assembly) :
    let cfg := new assembly
    let n := assembly.program.items.length
    markChecked (cfg.next assembly) (2 * n + 1) (List.replicate n false)
        (if n = 0 then [] else [0]) = some cfg.reachable ∧
      (∀ i, n ≤ i → cfg.isReachable i = false) ∧
      ∀ i < n, (cfg.isReachable i = true ↔ ∃ path, cfg.IsPath assembly path i) := by
  intro cfg n
  have hkinds : cfg.kinds.length = n := List.length_map ..
  refine ⟨?_, fun i hle => ?_, fun i hlt => ?_⟩
  · have hstart : cfg.reachable = Lib.Worklist.mark (cfg.next assembly) (List.replicate n false)
        (if n = 0 then [] else [0]) := by
      simp only [cfg, n, new, markReachable, List.isEmpty_replicate, decide_eq_true_eq]
      rfl
    rw [hstart]
    apply markChecked_eq (next_length cfg assembly)
    · intro i j hj
      rw [List.length_replicate, ← hkinds]
      exact edges_lt (mem_next.mp hj).2
    · intro i hi
      rw [List.length_replicate]
      split at hi
      · cases hi
      · rw [List.mem_singleton.mp hi]
        omega
    · rw [List.count_replicate_self]
      split <;> simp only [List.length_nil, List.length_singleton] <;> omega
  · by_contra hne
    obtain ⟨item, hitem⟩ := isReachable_item (Bool.not_eq_false _ ▸ hne)
    have := (List.getElem?_eq_some_iff.mp hitem).1
    omega
  · have hne : assembly.program.items ≠ [] := List.length_pos_iff.mp (Nat.zero_lt_of_lt hlt)
    have hsame : (fun i j => j ∈ cfg.next assembly i) = cfg.GoesOn assembly := by
      funext i j
      exact propext mem_next_new
    rw [isPath_iff, isReachable_iff, hsame]
    exact and_iff_right hne

end Cfg

end MarieRs.Lint
