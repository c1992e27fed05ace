import MarieRs.Lint.Reach
import MarieRs.Vm.Isa

namespace MarieRs.Lint

open Asm (Assembly Item assemble assemble_outlines sketchOf_laid item_address)
open Vm (Isa.State Isa.nextPc Isa.skips)

/-- The addresses at which a word of the program sits. -/
def At (a : Assembly) (address : MemoryAddress) (i : Nat) : Prop :=
  address.toNat = a.origin.toNat + i ∧ i < a.program.items.length

variable {source : Str}

theorem indexOf_at {address : MemoryAddress} {i : Nat} :
    (Cfg.new (assemble source)).indexOf address = some i ↔ At (assemble source) address i := by
  rw [Cfg.indexOf_eq_some, At]
  simp [Cfg.new, Cfg.markReachable]

theorem At.item {address : MemoryAddress} {i : Nat} (h : At (assemble source) address i) :
    ∃ item, (assemble source).program.items[i]? = some item :=
  ⟨_, List.getElem?_eq_getElem h.2⟩

theorem item_at {i : Nat} {item : Item} (h : (assemble source).program.items[i]? = some item) :
    At (assemble source) item.address i :=
  ⟨item_address (assemble_outlines source) (sketchOf_laid source) h,
    (List.getElem?_eq_some_iff.mp h).1⟩

theorem instructionWord_opcode {labels : Asm.Labels} {opcode : Opcode} {operand : Option Str}
    {word : Word} (h : Asm.instructionWord labels opcode operand = .ok word) :
    Instruction.decode word = some ⟨opcode, MemoryAddress.newMasked word⟩ := by
  obtain ⟨address, rfl⟩ : ∃ address, Instruction.encode ⟨opcode, address⟩ = word := by
    unfold Asm.instructionWord at h
    repeat' split at h
    all_goals cases h
    · exact ⟨_, rfl⟩
    · exact ⟨_, rfl⟩
  have hdecode := Instruction.decode_encode ⟨opcode, address⟩
  rw [hdecode, ← (Instruction.decode_eq_some.mp hdecode).2]

/-- A code item is assembled to an instruction of its opcode. -/
theorem code_word (hok : (assemble source).succeeded = true) {i : Nat} {item : Item}
    (hitem : (assemble source).program.items[i]? = some item) (hcode : classify item = .code) :
    ∃ opcode word, effectiveOpcode item = some opcode ∧ (assemble source).words[i]? = some word ∧
      Instruction.decode word = some ⟨opcode, MemoryAddress.newMasked word⟩ := by
  have houtlines := assemble_outlines source
  obtain ⟨word, hword, hget⟩ := houtlines.word hok hitem
  obtain ⟨hlowercase, hkind⟩ :=
    (houtlines.readItems item (List.mem_of_getElem? hitem)).wellRead
  rw [hlowercase] at hkind
  simp only [Asm.wordOf, Asm.placedOf, ← hkind] at hword
  rw [classify] at hcode
  cases hmnemonic : item.mnemonic.kind with
  | opcode opcode =>
    rw [hmnemonic] at hword
    exact ⟨opcode, word, by rw [effectiveOpcode, hmnemonic], hget, instructionWord_opcode hword⟩
  | unknown =>
    rw [hmnemonic] at hword
    cases hword
  | directive directive =>
    rw [hmnemonic] at hword hcode
    cases directive with
    | clear =>
      exact ⟨.loadImmi, word, by rw [effectiveOpcode, hmnemonic], hget,
        instructionWord_opcode hword⟩
    | dec | oct | hex | adr => cases hcode
    | org | end_ => cases hword

/-- What an edge of the word at `i` says about where the program counter is, by whether
the word skips. -/
def Edge.Describes (a : Assembly) (i : Nat) (skips : Prop) (pc : MemoryAddress) : Edge → Prop
  | .word j => At a pc j
  | .outside address => pc = address ∧ ∀ j, ¬ At a pc j
  | .offEnd => ∃ offset, (offset = 1 ∨ offset = 2 ∧ skips) ∧ a.program.items.length ≤ i + offset ∧
      pc.toNat = (a.origin.toNat + i + offset) % MEMORY_WORD_COUNT
  | .unknown => True

theorem target_describes (i : Nat) (skips : Prop) (address : MemoryAddress) :
    ((Cfg.new (assemble source)).target (some address)).Describes (assemble source) i skips
      address := by
  rw [Cfg.target]
  cases hindex : (Cfg.new (assemble source)).indexOf address with
  | some j => exact indexOf_at.mp hindex
  | none =>
    refine ⟨rfl, fun j hj => ?_⟩
    rw [indexOf_at.mpr hj] at hindex
    cases hindex

theorem step_describes {i offset : Nat} {skips : Prop} {pc : MemoryAddress}
    (hoffset : offset = 1 ∨ offset = 2 ∧ skips)
    (hpc : pc.toNat = ((assemble source).origin.toNat + i + offset) % MEMORY_WORD_COUNT) :
    ((Cfg.new (assemble source)).step i offset).Describes (assemble source) i skips pc := by
  have hlength : (Cfg.new (assemble source)).kinds.length =
      (assemble source).program.items.length := by simp [Cfg.new, Cfg.markReachable]
  rw [Cfg.step, hlength]
  by_cases hlt : i + offset < (assemble source).program.items.length
  · have hnext := (item_at (List.getElem?_eq_getElem hlt)).1
    have hbound := ((assemble source).program.items[i + offset]).address.isLt
    have hcount : MEMORY_WORD_COUNT = 2 ^ 12 := rfl
    rw [if_pos hlt]
    refine ⟨?_, hlt⟩
    rw [hpc, hcount, Nat.mod_eq_of_lt (by omega)]
    omega
  · rw [if_neg hlt]
    exact ⟨offset, hoffset, not_lt.mp hlt, hpc⟩

/-- Only an indirect jump goes somewhere unknown. -/
theorem unknown_edge {i : Nat} {item : Item} {opcode : Opcode} {word : Word}
    (hitem : (assemble source).program.items[i]? = some item)
    (hopcode : effectiveOpcode item = some opcode) (hword : (assemble source).words[i]? = some word)
    (h : Edge.unknown ∈ (Cfg.new (assemble source)).edges (assemble source) i) :
    opcode = .jumpI := by
  have hstep : ∀ offset, Edge.unknown ≠ (Cfg.new (assemble source)).step i offset := by
    intro offset heq
    rw [Cfg.step] at heq
    split at heq
    · cases heq
    · cases heq
  have htarget : ∀ address, Edge.unknown ≠ (Cfg.new (assemble source)).target (some address) := by
    intro address heq
    rw [Cfg.target] at heq
    split at heq
    · cases heq
    · cases heq
  simp only [Cfg.edges, hitem, hopcode, hword, Option.map_some] at h
  split at h
  · cases h
  · cases opcode with
    | jumpI => rfl
    | halt => cases h
    | jump | jnS => exact absurd (List.mem_singleton.mp h) (htarget _)
    | skipCond =>
      rcases List.mem_cons.mp h with h | h
      · exact absurd h (hstep 1)
      · exact absurd (List.mem_singleton.mp h) (hstep 2)
    | load | store | add | subt | input | output | loadImmi | addI | loadI | storeI =>
      exact absurd (List.mem_singleton.mp h) (hstep 1)

/-- From a code word, control goes where one of its edges says, whatever the machine holds. -/
theorem edges_cover {D : Type} {i : Nat} {item : Item} {opcode : Opcode} {word : Word}
    (hitem : (assemble source).program.items[i]? = some item) (hcode : classify item = .code)
    (hopcode : effectiveOpcode item = some opcode) (hword : (assemble source).words[i]? = some word)
    (hhalt : opcode ≠ .halt) {s : Isa.State D} (hpc : At (assemble source) s.pc i) :
    ∃ edge ∈ (Cfg.new (assemble source)).edges (assemble source) i,
      edge.Describes (assemble source) i
        (opcode = .skipCond ∧ Isa.skips (MemoryAddress.newMasked word) s.ac = true)
        (Isa.nextPc ⟨opcode, MemoryAddress.newMasked word⟩ s) := by
  have hone : (s.pc + 1).toNat =
      ((assemble source).origin.toNat + i + 1) % MEMORY_WORD_COUNT := by
    rw [BitVec.toNat_add, hpc.1]
    rfl
  have htwo : (s.pc + 2).toNat =
      ((assemble source).origin.toNat + i + 2) % MEMORY_WORD_COUNT := by
    rw [BitVec.toNat_add, hpc.1]
    rfl
  have hkind : (Cfg.new (assemble source)).kinds[i]? ≠ some .data := by
    have hkind : (Cfg.new (assemble source)).kind i = _ := Cfg.kind_new i
    rw [hitem, Option.map_some, hcode, Cfg.kind] at hkind
    rw [hkind]
    simp
  simp only [Cfg.edges, hitem, hopcode, hword, if_neg hkind, Option.map_some]
  cases opcode with
  | halt => exact absurd rfl hhalt
  | jump => exact ⟨_, List.mem_singleton_self _, target_describes i _ _⟩
  | jnS =>
    have hnext : (MemoryAddress.newMasked word).wrappingAdd 1 = MemoryAddress.newMasked word + 1 :=
      MemoryAddress.wrappingAdd_one _
    rw [hnext]
    exact ⟨_, List.mem_singleton_self _, target_describes i _ _⟩
  | jumpI => exact ⟨_, List.mem_singleton_self _, trivial⟩
  | skipCond =>
    simp only [Isa.nextPc]
    split
    · rename_i hskips
      exact ⟨_, List.mem_cons_of_mem _ (List.mem_singleton_self _),
        step_describes (.inr ⟨rfl, trivial, hskips⟩) htwo⟩
    · exact ⟨_, List.mem_cons_self, step_describes (.inl rfl) hone⟩
  | load | store | add | subt | input | output | loadImmi | addI | loadI | storeI =>
    exact ⟨_, List.mem_singleton_self _, step_describes (.inl rfl) hone⟩

end MarieRs.Lint
