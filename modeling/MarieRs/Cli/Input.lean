import MarieRs.Core.Image
import MarieRs.Asm.Api
import MarieRs.Vm.Api
import MarieRs.Vm.Loading

namespace MarieRs.Cli

open Asm Vm

/-- A program ready to be put into a machine. Where the words are and where execution begins
are separate. -/
structure Program where
  words : List Word
  loadAt : MemoryAddress
  entry : MemoryAddress
  fullImage : Bool

inductive LoadError where
  | image (error : ImageError)
  | doesNotFit (words : Nat) (origin : MemoryAddress)
  | notAssembled (diagnostics : List Diagnostic)
  | originConflict (origin written : MemoryAddress)

namespace Program

/-- Loads the program into a machine and positions it at the entry point. A full image has as
many words as memory, so copying it cannot fail. -/
def install {D : Type} (program : Program) (vm : MarieVMCore D) :
    Except ProgramTooLarge (MarieVMCore D) :=
  if program.fullImage then .ok (vm.flashProgram (imageOf program.words) program.entry)
  else
    match vm.loadProgram program.loadAt program.words with
    | .error error => .error error
    | .ok vm =>
      if program.entry ≠ program.loadAt then
        .ok { vm with registers := { vm.registers with pc := program.entry } }
      else .ok vm

end Program

/-- A full-size file loads at zero whatever the origin; a fragment is placed at the origin. -/
def loadImage (bytes : List Byte) (origin : MemoryAddress) : Except LoadError Program :=
  match decodeWords bytes with
  | .error error => .error (.image error)
  | .ok words =>
    if ¬ isFullImage bytes ∧ words.length + origin.index > MEMORY_WORD_COUNT then
      .error (.doesNotFit words.length origin)
    else
      .ok
        { words
          loadAt := if isFullImage bytes then MemoryAddress.zero else origin
          entry := origin
          fullImage := isFullImage bytes }

/-- An origin is only checked against the one that the source chose, if it chose one. -/
def loadSource (source : Str) (origin : Option MemoryAddress) : Except LoadError Program :=
  let assembly := assemble source
  if ¬ assembly.succeeded then .error (.notAssembled assembly.diagnostics)
  else
    match origin.filter fun origin => assembly.program.origin.isSome ∧ assembly.origin ≠ origin with
    | some origin => .error (.originConflict origin assembly.origin)
    | none =>
      .ok
        { words := assembly.words
          loadAt := assembly.origin
          entry := assembly.origin
          fullImage := false }

variable {D : Type}

/-- On an empty memory, loading words is flashing the image that holds only them. -/
theorem load_new {origin : MemoryAddress} {words : List Word} (device : D)
    (hfits : origin.toNat + words.length ≤ MEMORY_WORD_COUNT) :
    (MarieVMCore.new device).loadProgram origin words =
      .ok ((MarieVMCore.new device).flashProgram (fun address =>
        if origin.index ≤ address.index then (words[address.index - origin.index]?).getD 0
        else 0) origin) := by
  have hindex : origin.index + words.length ≤ MEMORY_WORD_COUNT := hfits
  simp only [MarieVMCore.loadProgram, MemoryImage.load, if_pos hindex]
  rfl

/-- A program that begins where it was placed is only placed. -/
theorem install_placed {words : List Word} {origin : MemoryAddress} (vm : MarieVMCore D)
    {loaded : MarieVMCore D} (h : vm.loadProgram origin words = .ok loaded) :
    Program.install ⟨words, origin, origin, false⟩ vm = .ok loaded := by
  rw [Program.install, if_neg (by simp)]
  simp only [h, ne_eq, not_true_eq_false, if_false]

/-- A binary file of words, at the origin that they fit at, is the words at that origin. -/
theorem loadImage_encodeWords {words : List Word} {origin : MemoryAddress} (device : D)
    {loaded : MarieVMCore D} (hfits : origin.toNat + words.length ≤ MEMORY_WORD_COUNT)
    (h : (MarieVMCore.new device).loadProgram origin words = .ok loaded) :
    ∃ program, loadImage (encodeWords words) origin = .ok program ∧
      program.install (MarieVMCore.new device) = .ok loaded := by
  have hcount : words.length ≤ MEMORY_WORD_COUNT := by omega
  have hindex : ¬ words.length + origin.index > MEMORY_WORD_COUNT := by
    rw [MemoryAddress.index]
    omega
  simp only [loadImage, decodeWords_encodeWords hcount, hindex, and_false, if_false]
  refine ⟨_, rfl, ?_⟩
  by_cases hfull : isFullImage (encodeWords words) = true
  · -- only a program at zero fills all of memory
    have hzero : origin = MemoryAddress.zero := by
      have hbytes : words.length * 2 = MEMORY_WORD_COUNT * 2 := by
        rw [← encodeWords_length]
        exact beq_iff_eq.mp hfull
      apply BitVec.eq_of_toNat_eq
      change origin.toNat = 0
      omega
    rw [Program.install]
    simp only [hfull, if_true]
    rw [← h, load_new device hfits, hzero]
    rfl
  · simp only [hfull, Bool.false_eq_true, if_false]
    exact install_placed _ h

theorem loadImage_encodeImage {image : MemoryImage} (origin : MemoryAddress)
    (vm : MarieVMCore D) :
    ∃ program, loadImage (encodeImage image) origin = .ok program ∧
      program.install vm = .ok (vm.flashProgram image origin) := by
  have hlength := imageWords_length image
  have hfull : isFullImage (encodeImage image) = true := by
    rw [isFullImage, encodeImage, encodeWords_length, hlength]
    rfl
  have hdecode : decodeWords (encodeImage image) = .ok (imageWords image) :=
    decodeWords_encodeWords hlength.le
  simp only [loadImage, hdecode, hfull, not_true_eq_false, false_and, if_false]
  refine ⟨_, rfl, ?_⟩
  rw [Program.install]
  simp only [if_true, imageOf_imageWords]

/-- A source that assembles is loaded at its origin. -/
theorem source_installs {source : Str} (hok : (assemble source).succeeded = true) (device : D) :
    ∃ program vm, loadSource source none = .ok program ∧
      program.install (MarieVMCore.new device) = .ok vm ∧
      (MarieVMCore.new device).loadProgram (assemble source).origin (assemble source).words =
        .ok vm := by
  have hloaded := load_new device (assemble_fits source)
  refine ⟨⟨(assemble source).words, (assemble source).origin, (assemble source).origin, false⟩, _,
    ?_, install_placed _ hloaded, hloaded⟩
  simp only [loadSource, hok, not_true_eq_false, if_false, Option.filter_none]

/-- All ways of loading a program that assembles make one and the same machine. -/
theorem loads_agree (source : Str) (hok : (assemble source).succeeded = true) (device : D) :
    let origin := (assemble source).origin
    let words := (assemble source).words
    let fresh := MarieVMCore.new device
    ∃ image loaded, (assemble source).image = some image ∧
      fresh.loadProgram origin words = .ok loaded ∧
      fresh.flashProgram image origin = loaded ∧
      (∃ decoded, decodeImage (encodeImage image) = .ok decoded ∧
        fresh.flashProgram decoded origin = loaded) ∧
      (∃ decoded, decodeWords (encodeWords words) = .ok decoded ∧
        fresh.loadProgram origin decoded = .ok loaded) ∧
      (∃ program, loadSource source none = .ok program ∧ program.install fresh = .ok loaded) ∧
      (∃ program, loadImage (encodeImage image) origin = .ok program ∧
        program.install fresh = .ok loaded) ∧
      ∃ program, loadImage (encodeWords words) origin = .ok program ∧
        program.install fresh = .ok loaded := by
  intro origin words fresh
  have hfits : origin.toNat + words.length ≤ MEMORY_WORD_COUNT := assemble_fits source
  have himage : (assemble source).image = some fun address =>
      if origin.index ≤ address.index then (words[address.index - origin.index]?).getD 0
      else 0 := by
    have hindex : ¬ origin.index + words.length > MEMORY_WORD_COUNT := by
      rw [MemoryAddress.index]
      omega
    rw [Assembly.image, if_neg (by simp only [hok, not_true_eq_false, false_or]; exact hindex)]
  have hloaded := load_new device hfits
  refine ⟨_, _, himage, hloaded, rfl, ⟨_, decodeImage_encodeImage _, rfl⟩,
    ⟨words, decodeWords_encodeWords (by omega), hloaded⟩, ?_, loadImage_encodeImage origin fresh,
    loadImage_encodeWords device hfits hloaded⟩
  refine ⟨⟨words, origin, origin, false⟩, ?_, install_placed fresh hloaded⟩
  simp only [loadSource, hok, not_true_eq_false, if_false, Option.filter_none]
  rfl

theorem loads_agree_halt :
    ∃ image loaded, (assemble "ORG 0FF\nHalt".toList).image = some image ∧
      (MarieVMCore.new ()).loadProgram (assemble "ORG 0FF\nHalt".toList).origin
        (assemble "ORG 0FF\nHalt".toList).words = .ok loaded ∧
      (MarieVMCore.new ()).flashProgram image (assemble "ORG 0FF\nHalt".toList).origin = loaded := by
  obtain ⟨image, loaded, himage, hloaded, hflashed, -⟩ :=
    loads_agree "ORG 0FF\nHalt".toList (by decide +kernel) ()
  exact ⟨image, loaded, himage, hloaded, hflashed⟩

end MarieRs.Cli
