import MarieRs.Vm.Machine

namespace MarieRs.Vm

theorem MemoryImage.load_ok {memory loaded : MemoryImage} {origin : MemoryAddress}
    {words : List Word} (h : MemoryImage.load memory origin words = .ok loaded) :
    origin.toNat + words.length ≤ MEMORY_WORD_COUNT ∧ ∀ address,
      loaded address = if origin.toNat ≤ address.toNat then
        (words[address.toNat - origin.toNat]?).getD (memory address) else memory address := by
  simp only [load] at h
  split at h
  · rename_i hfits
    cases h
    exact ⟨hfits, fun _ => rfl⟩
  · cases h

namespace MarieVMCore

variable {D : Type}

theorem loadProgram_ok {vm loaded : MarieVMCore D} {origin : MemoryAddress} {words : List Word}
    (h : vm.loadProgram origin words = .ok loaded) :
    ∃ memory, MemoryImage.load vm.memory origin words = .ok memory ∧
      loaded = { vm with memory }.rewindTo origin := by
  simp only [loadProgram] at h
  split at h
  · cases h
  · rename_i memory hmemory
    cases h
    exact ⟨memory, hmemory, rfl⟩

/-- A loaded machine stands before the first word, and holds them all. -/
theorem loadProgram_starts {vm loaded : MarieVMCore D} {origin : MemoryAddress} {words : List Word}
    (h : vm.loadProgram origin words = .ok loaded) :
    loaded.microPc = 0 ∧ loaded.registers.pc = origin ∧ ∀ address i word,
      address.toNat = origin.toNat + i → words[i]? = some word → loaded.memory address = word := by
  obtain ⟨memory, hmemory, rfl⟩ := loadProgram_ok h
  refine ⟨rfl, rfl, fun address i word haddress hword => ?_⟩
  have hload := (MemoryImage.load_ok hmemory).2 address
  rw [if_pos (by omega), show address.toNat - origin.toNat = i by omega, hword] at hload
  exact hload

end MarieVMCore

end MarieRs.Vm
