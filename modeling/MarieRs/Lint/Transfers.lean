import MarieRs.Lint.Edges
import MarieRs.Vm.Trajectory

namespace MarieRs.Lint

open Asm (Assembly Item assemble)
open Vm (MarieVMCore MarieVmIODevice VecIo Isa.State Isa.nextPc Isa.skips Isa.exec_pc Isa.Answers)
open Vm.MarieVMCore (Run RunWhile Underway)

variable {source : Str} {D : Type}

theorem Edge.Describes.mono {a : Assembly} {i : Nat} {skips : Prop} {pc : MemoryAddress}
    {edge : Edge} (h : edge.Describes a i skips pc) : edge.Describes a i True pc := by
  cases edge with
  | word j => exact h
  | outside address => exact h
  | unknown => exact h
  | offEnd =>
    obtain ⟨offset, hoffset, hrest⟩ := h
    exact ⟨offset, hoffset.imp_right fun htwo => ⟨htwo.1, trivial⟩, hrest⟩

/-- Every selection holds of some accumulator and fails of another. -/
theorem skips_either (x : MemoryAddress) (taken : Bool) : ∃ ac, Isa.skips x ac = taken := by
  have hselect : ∀ k, k < 4 → x.toNat / 1024 = k → ∃ ac, Isa.skips x ac = taken := by
    intro k hk hx
    simp only [Isa.skips, hx]
    interval_cases k
    · cases taken
      · exact ⟨0, by decide⟩
      · exact ⟨0x8000, by decide⟩
    · cases taken
      · exact ⟨1, by decide⟩
      · exact ⟨0, by decide⟩
    · cases taken
      · exact ⟨0, by decide⟩
      · exact ⟨1, by decide⟩
    · cases taken
      · exact ⟨0, by decide⟩
      · exact ⟨1, by decide⟩
  have hbound := x.isLt
  exact hselect _ (by omega) rfl

/-- Each edge is where control goes for some accumulator; only a skip depends on it. -/
theorem edges_taken {i : Nat} {item : Item} {opcode : Opcode} {word : Word}
    (hitem : (assemble source).program.items[i]? = some item)
    (hopcode : effectiveOpcode item = some opcode) (hword : (assemble source).words[i]? = some word)
    {edge : Edge} (hedge : edge ∈ (Cfg.new (assemble source)).edges (assemble source) i)
    (hunknown : edge ≠ .unknown) {s : Isa.State D} (hpc : At (assemble source) s.pc i) :
    opcode ≠ .halt ∧ ∃ ac, (opcode = .skipCond ∨ ac = s.ac) ∧
      edge.Describes (assemble source) i True
        (Isa.nextPc ⟨opcode, MemoryAddress.newMasked word⟩ { s with ac }) := by
  have hone : (s.pc + 1).toNat =
      ((assemble source).origin.toNat + i + 1) % MEMORY_WORD_COUNT := by
    rw [BitVec.toNat_add, hpc.1]
    rfl
  have htwo : (s.pc + 2).toNat =
      ((assemble source).origin.toNat + i + 2) % MEMORY_WORD_COUNT := by
    rw [BitVec.toNat_add, hpc.1]
    rfl
  simp only [Cfg.edges, hitem, hopcode, hword, Option.map_some] at hedge
  split at hedge
  · cases hedge
  · cases opcode with
    | halt => cases hedge
    | jump =>
      rw [List.mem_singleton.mp hedge]
      exact ⟨by decide, s.ac, .inr rfl, target_describes i _ _⟩
    | jnS =>
      have hnext :
          (MemoryAddress.newMasked word).wrappingAdd 1 = MemoryAddress.newMasked word + 1 :=
        MemoryAddress.wrappingAdd_one _
      rw [List.mem_singleton.mp hedge, hnext]
      exact ⟨by decide, s.ac, .inr rfl, target_describes i _ _⟩
    | jumpI => exact absurd (List.mem_singleton.mp hedge) hunknown
    | skipCond =>
      refine ⟨by decide, ?_⟩
      rcases List.mem_cons.mp hedge with rfl | hsecond
      · obtain ⟨ac, hac⟩ := skips_either (MemoryAddress.newMasked word) false
        refine ⟨ac, .inl rfl, ?_⟩
        simp only [Isa.nextPc, hac, Bool.false_eq_true, if_false]
        exact step_describes (.inl rfl) hone
      · obtain ⟨ac, hac⟩ := skips_either (MemoryAddress.newMasked word) true
        refine ⟨ac, .inl rfl, ?_⟩
        rw [List.mem_singleton.mp hsecond]
        simp only [Isa.nextPc, hac, if_true]
        exact step_describes (.inr ⟨rfl, trivial⟩) htwo
    | load | store | add | subt | input | output | loadImmi | addI | loadI | storeI =>
      rw [List.mem_singleton.mp hedge]
      exact ⟨by decide, s.ac, .inr rfl, step_describes (.inl rfl) hone⟩

/-- A machine at the start of a code item that still is what it was assembled to. -/
structure Begins (a : Assembly) (i : Nat) (vm : MarieVMCore D) : Prop where
  boundary : vm.microPc = 0
  pc : vm.registers.pc.toNat = a.origin.toNat + i
  word : a.words[i]? = some (vm.memory vm.registers.pc)

section Device
variable [MarieVmIODevice D] {i : Nat} {item : Item}

theorem Begins.step {vm vm' : MarieVMCore D} (h : Begins (assemble source) i vm)
    (hok : (assemble source).succeeded = true)
    (hitem : (assemble source).program.items[i]? = some item) (hcode : classify item = .code)
    (hstep : vm.step = (.continue_, vm')) :
    ∃ edge ∈ (Cfg.new (assemble source)).edges (assemble source) i,
      edge.Describes (assemble source) i True vm'.registers.pc := by
  obtain ⟨opcode, word, hopcode, hword, hdecode⟩ := code_word hok hitem hcode
  rw [h.word, Option.some.injEq] at hword
  subst hword
  have hat : At (assemble source) vm.registers.pc i := ⟨h.pc, (item_at hitem).2⟩
  have hrun : Run vm vm vm := .start
  obtain ⟨hhalt, -, value, harch⟩ := hrun.step_turned h.boundary hstep hdecode
  have hpc : vm'.registers.pc =
      Isa.nextPc ⟨opcode, MemoryAddress.newMasked (vm.memory vm.registers.pc)⟩ vm.arch :=
    (congrArg Vm.Isa.State.pc harch).trans (Isa.exec_pc _ _)
  obtain ⟨edge, hedge, hdescribes⟩ := edges_cover hitem hcode hopcode h.word hhalt
    (s := vm.arch) hat
  rw [hpc]
  exact ⟨edge, hedge, hdescribes.mono⟩

/-- The accumulator that a device accepts, or the one that a skip asks for. -/
theorem Begins.takes {vm : MarieVMCore D} (h : Begins (assemble source) i vm)
    (hok : (assemble source).succeeded = true)
    (hitem : (assemble source).program.items[i]? = some item) (hcode : classify item = .code)
    {edge : Edge} (hedge : edge ∈ (Cfg.new (assemble source)).edges (assemble source) i)
    (hunknown : edge ≠ .unknown) {accepted : Word}
    (hanswers : ∀ opcode, effectiveOpcode item = some opcode →
      Isa.Answers opcode vm.ioDevice accepted) :
    ∃ ac vm', MarieVMCore.step { vm with registers := { vm.registers with ac } } =
        (.continue_, vm') ∧ edge.Describes (assemble source) i True vm'.registers.pc := by
  obtain ⟨opcode, word, hopcode, hword, hdecode⟩ := code_word hok hitem hcode
  rw [h.word, Option.some.injEq] at hword
  subst hword
  have hat : At (assemble source) vm.registers.pc i := ⟨h.pc, (item_at hitem).2⟩
  obtain ⟨hhalt, ac, hac, hdescribes⟩ := edges_taken hitem hopcode h.word hedge hunknown
    (s := { vm.arch with ac := accepted }) hat
  have hgiven : Isa.Answers opcode vm.ioDevice ac := by
    rcases hac with rfl | rfl
    · exact ⟨fun hinput => absurd hinput (by decide), fun houtput => absurd houtput (by decide)⟩
    · exact hanswers opcode hopcode
  obtain ⟨vm', hstep, harch, -⟩ := (Underway.start
    (b := { vm with registers := { vm.registers with ac } }) h.boundary hdecode).step_exec hgiven
  rw [if_neg hhalt] at hstep
  have hpc := (congrArg Vm.Isa.State.pc harch).trans (Isa.exec_pc _ _)
  refine ⟨ac, vm', hstep, ?_⟩
  rw [show vm'.registers.pc = _ from hpc]
  exact hdescribes

end Device

/-- The graph and the machine agree on where control goes from every code item. -/
theorem edges_match_machine (hok : (assemble source).succeeded = true) {i : Nat} {item : Item}
    (hitem : (assemble source).program.items[i]? = some item) (hcode : classify item = .code) :
    (∀ (D : Type) [MarieVmIODevice D] (vm vm' : MarieVMCore D), Begins (assemble source) i vm →
      vm.step = (.continue_, vm') →
      ∃ edge ∈ (Cfg.new (assemble source)).edges (assemble source) i,
        edge.Describes (assemble source) i True vm'.registers.pc) ∧
    (∀ edge ∈ (Cfg.new (assemble source)).edges (assemble source) i, edge ≠ .unknown →
      ∀ (D : Type) [MarieVmIODevice D] (vm : MarieVMCore D), Begins (assemble source) i vm →
      ∀ accepted, (∀ opcode, effectiveOpcode item = some opcode →
        Isa.Answers opcode vm.ioDevice accepted) →
      ∃ ac vm', MarieVMCore.step { vm with registers := { vm.registers with ac } } =
          (.continue_, vm') ∧ edge.Describes (assemble source) i True vm'.registers.pc) ∧
    (.unknown ∈ (Cfg.new (assemble source)).edges (assemble source) i →
      effectiveOpcode item = some .jumpI) ∧
    (effectiveOpcode item = some .halt →
      (Cfg.new (assemble source)).edges (assemble source) i = []) := by
  refine ⟨fun D _ vm vm' h hstep => h.step hok hitem hcode hstep,
    fun edge hedge hunknown D _ vm h accepted => h.takes hok hitem hcode hedge hunknown, ?_, ?_⟩
  · intro hunknown
    obtain ⟨opcode, word, hopcode, hword, -⟩ := code_word hok hitem hcode
    rw [hopcode, unknown_edge hitem hopcode hword hunknown]
  · intro hhalt
    simp only [Cfg.edges, hitem, hhalt]
    split <;> rfl

def skipProgram : Str := "Skipcond 400\nHalt".toList

theorem edges_match_machine_skip :
    ∃ item, (assemble skipProgram).program.items[0]? = some item ∧
      ∀ edge ∈ (Cfg.new (assemble skipProgram)).edges (assemble skipProgram) 0, edge ≠ .unknown →
        ∀ vm : MarieVMCore VecIo, Begins (assemble skipProgram) 0 vm →
          ∃ ac vm', MarieVMCore.step { vm with registers := { vm.registers with ac } } =
            (.continue_, vm') ∧ edge.Describes (assemble skipProgram) 0 True vm'.registers.pc := by
  have hread : (assemble skipProgram).program.items[0]?.map
      (fun item => (classify item, effectiveOpcode item)) = some (.code, some .skipCond) := by
    decide +kernel
  obtain ⟨item, hitem, hpair⟩ := Option.map_eq_some_iff.mp hread
  obtain ⟨hcode, hopcode⟩ := Prod.mk.inj hpair
  refine ⟨item, hitem, fun edge hedge hunknown vm h => ?_⟩
  apply (edges_match_machine (by decide +kernel) hitem hcode).2.1 edge hedge hunknown VecIo vm h 0
  intro opcode hother
  rw [hopcode, Option.some.injEq] at hother
  subst hother
  exact ⟨fun hinput => absurd hinput (by decide), fun houtput => absurd houtput (by decide)⟩

end MarieRs.Lint
