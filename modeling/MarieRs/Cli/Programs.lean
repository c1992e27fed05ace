import MarieRs.Cli.Input
import MarieRs.Vm.Breakpoints
import MarieRs.Vm.Contracts

namespace MarieRs.Cli

open Asm Vm Lib.Triples
open MarieVmIODevice
open Vm.Isa (State turn turn_plain turn_input turn_output turn_halt exec)

/-- The words are in memory from address zero on. -/
def Holds (words : List Word) (memory : MemoryImage) : Prop :=
  ∀ i word, words[i]? = some word → memory (BitVec.ofNat 12 i) = word

theorem Holds.left {words more : List Word} {memory : MemoryImage}
    (h : Holds (words ++ more) memory) : Holds words memory := by
  intro i word hword
  refine h i word ?_
  rw [List.getElem?_append_left (List.getElem?_eq_some_iff.mp hword).1, hword]

theorem Holds.update {words : List Word} {memory : MemoryImage} (h : Holds words memory)
    (address : MemoryAddress) (haddress : words.length ≤ address.toNat) (value : Word) :
    Holds words (Function.update memory address value) := by
  intro i word hword
  obtain ⟨hlt, -⟩ := List.getElem?_eq_some_iff.mp hword
  rw [Function.update_of_ne, h i word hword]
  intro heq
  have hnat := congrArg BitVec.toNat heq
  rw [BitVec.toNat_ofNat, Nat.mod_eq_of_lt (by omega)] at hnat
  omega

theorem Holds.decodes {words : List Word} {memory : MemoryImage} (h : Holds words memory)
    {pc : MemoryAddress} {i : Instruction}
    (hi : words[pc.toNat]?.bind Instruction.decode = some i) :
    Instruction.decode (memory pc) = some i := by
  obtain ⟨word, hword, hdecode⟩ := Option.bind_eq_some_iff.mp hi
  have hmemory := h pc.toNat word hword
  rw [BitVec.ofNat_toNat, BitVec.setWidth_eq] at hmemory
  rw [hmemory, hdecode]

/-- `examples/sum.mas` -/
def sumSource : Str := "/ Sum inputs until a zero is entered, then print the total.
/
/   $ marie run examples/sum.mas
/   5 10 27 0  ->  42

        Clear
        Store Total
Loop,   Input
        Skipcond 400        / stop when the value is zero
        Jump  Accumulate
        Load  Total
        Output
        Halt
Accumulate, Add Total
        Store Total
        Jump  Loop
Total,  DEC 0
".toList

/-- What it is assembled to, but for the word of `Total` behind it. -/
def sumCode : List Word :=
  [0xA000, 0x200B, 0x5000, 0x8400, 0x9008, 0x100B, 0x6000, 0x7000, 0x300B, 0x200B, 0x9002]

theorem skips_zero (ac : Word) : Isa.skips 0x400 ac = decide (ac = 0) := by
  have hiff : ac.toInt = 0 ↔ ac = 0 := by
    rw [← BitVec.toInt_inj]
    rfl
  simp only [Isa.skips, show (0x400 : MemoryAddress).toNat / 1024 = 1 by decide, hiff]

variable {D : Type} [MarieVmIODevice D]

/-- A round of the loop adds what is entered to the total. -/
theorem sum_accumulates (ac : Word) {x : Word} {memory : MemoryImage} {device device' : D}
    (hcode : Holds sumCode memory) (hpoll : pollInput device = (.ready (.ok x), device'))
    (hx : x ≠ 0) :
    Turns turn 6 ⟨ac, 2, memory, device⟩
      ⟨x + memory 0xB, 2, Function.update memory 0xB (x + memory 0xB), device'⟩ := by
  have hskip : Isa.skips 0x400 x = false := by
    rw [skips_zero, decide_eq_false hx]
  refine .next (turn_input (x := 0) (hcode.decodes rfl) hpoll) ?_
  refine .next (turn_plain (i := ⟨.skipCond, 0x400⟩) (hcode.decodes rfl) (by decide)) ?_
  simp only [exec, hskip, Bool.false_eq_true, if_false]
  refine .next (turn_plain (i := ⟨.jump, 8⟩) (hcode.decodes rfl) (by decide)) ?_
  refine .next (turn_plain (i := ⟨.add, 0xB⟩) (hcode.decodes rfl) (by decide)) ?_
  refine .next (turn_plain (i := ⟨.store, 0xB⟩) (hcode.decodes rfl) (by decide)) ?_
  have hstored := hcode.update 0xB (by decide) (x + memory 0xB)
  refine .next (turn_plain (i := ⟨.jump, 2⟩) (hstored.decodes rfl) (by decide)) ?_
  simp only [exec, State.store, Isa.displayed_below (show (0xB : MemoryAddress) < 0xF00 by decide)]
  exact .none _

/-- A zero ends the loop, and the total is printed. -/
theorem sum_prints {ac : Word} {memory : MemoryImage} {device device' device'' : D}
    (hcode : Holds sumCode memory) (hpoll : pollInput device = (.ready (.ok 0), device'))
    (hout : output device' (memory 0xB) = (.ok (), device'')) :
    Ends turn 4 ⟨ac, 2, memory, device⟩ (.halted, ⟨memory 0xB, 7, memory, device''⟩) := by
  refine ⟨⟨memory 0xB, 7, memory, device''⟩, ?_, turn_halt (x := 0) (hcode.decodes rfl)⟩
  refine .next (turn_input (x := 0) (hcode.decodes rfl) hpoll) ?_
  refine .next (turn_plain (i := ⟨.skipCond, 0x400⟩) (hcode.decodes rfl) (by decide)) ?_
  simp only [exec, skips_zero, decide_true, if_true]
  refine .next (turn_plain (i := ⟨.load, 0xB⟩) (hcode.decodes rfl) (by decide)) ?_
  refine .next (turn_output (x := 0) (hcode.decodes rfl) hout) ?_
  exact .none _

/-- From the head of the loop the program prints the total of what is entered before a zero, or
fails with the input that ends before one. -/
theorem sum_loop (console : Console D) (ac : Word) {memory : MemoryImage} (device : D)
    (hcode : Holds sumCode memory) :
    (∃ xs more s', console.words device = xs ++ 0 :: more ∧ (∀ x ∈ xs, x ≠ 0) ∧
      Ends turn (6 * xs.length + 4) ⟨ac, 2, memory, device⟩ (.halted, s') ∧
      console.printed s'.device = console.printed device ++ [memory 0xB + xs.sum] ∧
      console.words s'.device = more) ∨
    ∃ xs error s', (∀ x ∈ xs, x ≠ 0) ∧ xs <+: console.words device ∧
      Ends turn (6 * xs.length) ⟨ac, 2, memory, device⟩
        (.faulted (.io 2 .input error), s') ∧
      console.printed s'.device = console.printed device ∧
      (console.words device = xs ∨ console.broken device) := by
  induction hlength : (console.words device).length using Nat.strong_induction_on
    generalizing ac memory device with
  | _ length ih =>
    rcases console.poll device with ⟨x, device', hpoll, hwords, hprinted, hbroken⟩ |
      ⟨error, device', hpoll, hprinted, hfails⟩
    · by_cases hx : x = 0
      · subst hx
        obtain ⟨device'', hout, hmore, hprints⟩ := console.output device' (memory 0xB)
        refine .inl ⟨[], console.words device', _, hwords, nofun, sum_prints hcode hpoll hout, ?_,
          hmore⟩
        rw [hprints, hprinted, List.sum_nil, add_zero]
      · have hless : (console.words device').length < length := by
          rw [← hlength, hwords, List.length_cons]
          exact Nat.lt_succ_self _
        have hround := sum_accumulates ac hcode hpoll hx
        have hstored := hcode.update 0xB (by decide) (x + memory 0xB)
        have hcost : ∀ xs : List Word, 6 * (x :: xs).length = 6 + 6 * xs.length := fun xs => by
          rw [List.length_cons]
          omega
        rcases ih _ hless (x + memory 0xB) device' hstored rfl with
          ⟨xs, more, s', hsplit, hnonzero, ⟨t, hturns, hend⟩, hprints, hmore⟩ |
          ⟨xs, error, s', hnonzero, hprefix, ⟨t, hturns, hend⟩, hprints, hfails⟩
        · refine .inl ⟨x :: xs, more, s', ?_, ?_, ⟨t, ?_, hend⟩, ?_, hmore⟩
          · rw [hwords, hsplit]
            rfl
          · exact List.forall_mem_cons.mpr ⟨hx, hnonzero⟩
          · rw [hcost, Nat.add_assoc]
            exact hround.trans hturns
          · rw [hprints, hprinted, Function.update_self, List.sum_cons, BitVec.add_comm x,
              BitVec.add_assoc]
        · refine .inr ⟨x :: xs, error, s', ?_, ?_, ⟨t, ?_, hend⟩, hprints.trans hprinted,
            hfails.imp (fun h => ?_) hbroken⟩
          · exact List.forall_mem_cons.mpr ⟨hx, hnonzero⟩
          · rw [hwords]
            exact List.cons_prefix_cons.mpr ⟨rfl, hprefix⟩
          · rw [hcost]
            exact hround.trans hturns
          · rw [hwords, h]
    · refine .inr ⟨[], error, ⟨ac, 2, memory, device'⟩, nofun, List.nil_prefix, ⟨_, .none _, ?_⟩,
        hprinted, hfails⟩
      exact Isa.turn_stops.mpr
        ((Isa.step_input (s := ⟨ac, 2, memory, device⟩) (x := 0) (hcode.decodes rfl)).2 _ _ hpoll)

theorem sumSource_assembles : (assemble sumSource).succeeded = true ∧
    (assemble sumSource).origin = 0 ∧ (assemble sumSource).words = sumCode ++ [0] := by
  decide +kernel

omit [MarieVmIODevice D] in
/-- A source that is assembled at zero starts there, in a machine that holds its words and has no
breakpoint. -/
theorem starts_at_zero {source : Str} {words : List Word} (device : D)
    (hassembles : (assemble source).succeeded = true ∧ (assemble source).origin = 0 ∧
      (assemble source).words = words) :
    ∃ program vm, loadSource source none = .ok program ∧
      program.install (.new device) = .ok vm ∧ vm.microPc = 0 ∧ vm.Free ∧
      vm.arch = ⟨0, 0, vm.memory, device⟩ ∧ Holds words vm.memory := by
  obtain ⟨hok, horigin, hwords⟩ := hassembles
  obtain ⟨program, vm, hprogram, hinstall, hvm⟩ := source_installs hok device
  rw [horigin, hwords] at hvm
  obtain ⟨hz, hpc, hmemory⟩ := MarieVMCore.loadProgram_starts hvm
  obtain ⟨memory, hload, rfl⟩ := MarieVMCore.loadProgram_ok hvm
  refine ⟨program, _, hprogram, hinstall, hz, ?_, rfl, fun i word hword => ?_⟩
  · funext address
    exact BreakpointSet.contains_new address
  · obtain ⟨hfits, -⟩ := MemoryImage.load_ok hload
    obtain ⟨hlt, -⟩ := List.getElem?_eq_some_iff.mp hword
    have hzero : (0 : MemoryAddress).toNat = 0 := rfl
    have hsize : MEMORY_WORD_COUNT = 2 ^ 12 := rfl
    refine hmemory _ i word ?_ hword
    rw [BitVec.toNat_ofNat, Nat.mod_eq_of_lt (by omega), hzero, Nat.zero_add]

/-- Put into its machine, `examples/sum.mas` prints the sum of the words before the first zero and
halts, leaving the rest alone. Where the input ends or fails before a zero, it prints nothing and
the fault is that of the `Input`. -/
theorem sum_runs (console : Console D) (device : D) :
    ∃ program start outcome, loadSource sumSource none = .ok program ∧
      program.install (.new device) = .ok start ∧
      (∀ other, MarieVMCore.Runs none start other ↔ other = outcome) ∧
      ((∃ xs more vm, console.words device = xs ++ 0 :: more ∧ (∀ x ∈ xs, x ≠ 0) ∧
          outcome = .terminated vm ∧
          console.printed vm.ioDevice = console.printed device ++ [xs.sum] ∧
          console.words vm.ioDevice = more ∧
          ∀ limit, start.runBounded limit = outcome ↔ 6 * xs.length + 7 ≤ limit) ∨
        ∃ xs error vm, xs <+: console.words device ∧ (∀ x ∈ xs, x ≠ 0) ∧
          outcome = .faulted vm (.io 2 .input error) ∧
          console.printed vm.ioDevice = console.printed device ∧
          (console.words device = xs ∨ console.broken device) ∧
          ∀ limit, start.runBounded limit = outcome ↔ 6 * xs.length + 3 ≤ limit) := by
  obtain ⟨program, start, hprogram, hinstall, hz, hfree, harch, hwords⟩ :=
    starts_at_zero device sumSource_assembles
  have hcode : Holds sumCode start.memory := hwords.left
  have hrepresents := MarieVMCore.Represents.boundary hz
  -- the total is cleared before the loop
  have hstored := hcode.update 0xB (by decide) 0
  have hclears : Turns turn 2 start.arch ⟨0, 2, Function.update start.memory 0xB 0, device⟩ := by
    rw [harch]
    refine .next (turn_plain (i := ⟨.loadImmi, 0⟩) (hcode.decodes rfl) (by decide)) ?_
    refine .next (turn_plain (i := ⟨.store, 0xB⟩) (hcode.decodes rfl) (by decide)) ?_
    simp only [exec, State.store,
      Isa.displayed_below (show (0xB : MemoryAddress) < 0xF00 by decide)]
    exact .none _
  rcases sum_loop console 0 device hstored with
    ⟨xs, more, s', hsplit, hnonzero, ⟨t, hturns, hend⟩, hprints, hmore⟩ |
    ⟨xs, error, s', hnonzero, hprefix, ⟨t, hturns, hend⟩, hprints, hfails⟩
  · obtain ⟨outcome, hhands, hruns, hbounded⟩ :=
      MarieVMCore.runs_stop hrepresents hfree ⟨t, hclears.trans hturns, hend⟩
    obtain ⟨vm, rfl, harch'⟩ := hhands.ofHalted
    have hdevice : vm.ioDevice = s'.device := congrArg State.device harch'
    refine ⟨program, start, _, hprogram, hinstall, hruns,
      .inl ⟨xs, more, vm, hsplit, hnonzero, rfl, ?_, ?_, fun limit => ?_⟩⟩
    · rw [hdevice, hprints, Function.update_self, zero_add]
    · rw [hdevice, hmore]
    · rw [hbounded]
      omega
  · obtain ⟨outcome, hhands, hruns, hbounded⟩ :=
      MarieVMCore.runs_stop hrepresents hfree ⟨t, hclears.trans hturns, hend⟩
    obtain ⟨vm, rfl, harch'⟩ := hhands.ofFaulted
    have hdevice : vm.ioDevice = s'.device := congrArg State.device harch'
    refine ⟨program, start, _, hprogram, hinstall, hruns,
      .inr ⟨xs, error, vm, hprefix, hnonzero, rfl, ?_, hfails, fun limit => ?_⟩⟩
    · rw [hdevice, hprints]
    · rw [hbounded]
      omega

/-- What the source says it does: `5 10 27 0 -> 42` -/
theorem sum_runs_typed :
    let stdin : Stdin := [.ok ⟨"5\n".toList, by decide⟩, .ok ⟨"10\n".toList, by decide⟩,
      .ok ⟨"27\n".toList, by decide⟩, .ok ⟨"0\n".toList, by decide⟩]
    ∃ program start vm, loadSource sumSource none = .ok program ∧
      program.install (.new (StdinIo.withMode .word stdin)) = .ok start ∧
      MarieVMCore.Runs none start (.terminated vm) ∧ vm.ioDevice.printed = [42] := by
  intro stdin
  have hwords : StdinIo.console.words (.withMode .word stdin) = [5, 10, 27, 0] := by decide
  obtain ⟨program, start, outcome, hprogram, hinstall, hruns, hends⟩ :=
    sum_runs StdinIo.console (.withMode .word stdin)
  rw [hwords] at hends
  rcases hends with ⟨xs, more, vm, hsplit, hnonzero, rfl, hprints, -, -⟩ |
    ⟨xs, error, vm, -, hnonzero, -, -, hends | ⟨error', herror'⟩, -⟩
  · refine ⟨program, start, vm, hprogram, hinstall, (hruns _).mpr rfl, ?_⟩
    have hxs : xs = [5, 10, 27] := by
      have htaken : (xs ++ 0 :: more).takeWhile (fun x => x != 0) = xs := by
        rw [List.takeWhile_append_of_pos fun x hx => bne_iff_ne.mpr (hnonzero x hx)]
        simp
      rw [← htaken, ← hsplit]
      decide
    rw [hxs] at hprints
    exact hprints
  · rw [← hends] at hnonzero
    exact absurd rfl (hnonzero 0 (by decide))
  · change .error error' ∈ stdin at herror'
    simp [stdin] at herror'

/-- `a_counted_loop` -/
def countSource : Str := "/ Sum 1..5.
        Clear
        Store Total
        Load  Count
Loop,   Store Count
        Load  Total
        Add   Count
        Store Total
        Load  Count
        Subt  One
        Skipcond 800
        Jump  Done
        Jump  Loop
Done,   Load  Total
        Output
        Halt
Count,  DEC 5
Total,  DEC 0
One,    DEC 1
".toList

/-- What it is assembled to, but for the words of `Count`, `Total` and `One` behind it. -/
def countCode : List Word :=
  [0xA000, 0x2010, 0x100F, 0x200F, 0x1010, 0x300F, 0x2010, 0x100F, 0x4011, 0x8800, 0x900C, 0x9003,
    0x1010, 0x6000, 0x7000]

/-- The loop has `count` rounds to go, and what they add up to is still missing from `total`. -/
structure Counting (total : Nat) (device : D) (count : Nat) (s : State D) : Prop where
  pc : s.pc = 3
  ac : s.ac = BitVec.ofNat 16 count
  code : Holds countCode s.memory
  one : s.memory 0x11 = 1
  missing : s.memory 0x10 + BitVec.ofNat 16 (∑ i ∈ Finset.range (count + 1), i) =
    BitVec.ofNat 16 total
  device : s.device = device
  positive : 0 < count
  bounded : count < 2 ^ 15

theorem skips_positive {count : Nat} (h : count < 2 ^ 15) :
    Isa.skips 0x800 (BitVec.ofNat 16 count) = decide (0 < count) := by
  have hnat : (BitVec.ofNat 16 count).toNat = count := by
    rw [BitVec.toNat_ofNat, Nat.mod_eq_of_lt (by omega)]
  have hint : (BitVec.ofNat 16 count).toInt = count := by
    rw [BitVec.toInt_eq_toNat_of_lt (by omega), hnat]
  have hselector : (0x800 : MemoryAddress).toNat / 1024 = 2 := by decide
  simp only [Isa.skips, hselector, hint, Int.natCast_pos]

/-- The store of a word below the display. -/
theorem turn_store {words : List Word} {ac : Word} {pc x : MemoryAddress} {memory : MemoryImage}
    {device : D} (hcode : Holds words memory)
    (hi : words[pc.toNat]?.bind Instruction.decode = some ⟨.store, x⟩) (hx : x < 0xF00) :
    turn (⟨ac, pc, memory, device⟩ : State D) =
      .inr ⟨ac, pc + 1, Function.update memory x ac, device⟩ := by
  have hturn := turn_plain (s := ⟨ac, pc, memory, device⟩) (hcode.decodes hi) ⟨nofun, nofun, nofun⟩
  simp only [exec, State.store, Isa.displayed_below hx] at hturn
  exact hturn

/-- A round adds the count to the total and takes one off the count. The last one leaves the
loop. -/
theorem counting_round (total count : Nat) (device : D) :
    Triple turn (Counting total device (count + 1)) 8 (fun s =>
      if 0 < count then Counting total device count s
      else s.pc = 0xC ∧ Holds countCode s.memory ∧ s.memory 0x10 = BitVec.ofNat 16 total ∧
        s.device = device) := by
  rintro ⟨ac, pc, memory, device'⟩ ⟨rfl, hac, hcode, hone, hmissing, rfl, hpositive, hbounded⟩
  simp only at hac hcode hone hmissing
  have hcounted := hcode.update 0xF (by decide) ac
  have hadded := hcounted.update 0x10 (by decide) (memory 0x10 + ac)
  have htotal : Function.update memory 0xF ac 0x10 = memory 0x10 :=
    Function.update_of_ne (by decide) _ _
  -- what the round leaves in memory
  generalize hmemory' :
    Function.update (Function.update memory 0xF ac) 0x10 (memory 0x10 + ac) = memory' at hadded
  have hcount' : memory' 0xF = ac := by
    rw [← hmemory', Function.update_of_ne (by decide), Function.update_self]
  have htotal' : memory' 0x10 = memory 0x10 + ac := by rw [← hmemory', Function.update_self]
  have hone' : memory' 0x11 = 1 := by
    rw [← hmemory', Function.update_of_ne (by decide), Function.update_of_ne (by decide), hone]
  have hless : ac - 1 = BitVec.ofNat 16 count := by
    rw [hac, BitVec.ofNat_add]
    exact BitVec.add_sub_cancel _ _
  refine ⟨⟨BitVec.ofNat 16 count, if 0 < count then 3 else 0xC, memory', device'⟩, ?_, ?_⟩
  · refine .next (turn_store (x := 0xF) hcode rfl (by decide)) ?_
    refine .next (turn_plain (i := ⟨.load, 0x10⟩) (hcounted.decodes rfl) (by decide)) ?_
    refine .next (turn_plain (i := ⟨.add, 0xF⟩) (hcounted.decodes rfl) (by decide)) ?_
    simp only [exec, htotal, Function.update_self]
    refine .next (turn_store (x := 0x10) hcounted rfl (by decide)) ?_
    rw [hmemory']
    refine .next (turn_plain (i := ⟨.load, 0xF⟩) (hadded.decodes rfl) (by decide)) ?_
    refine .next (turn_plain (i := ⟨.subt, 0x11⟩) (hadded.decodes rfl) (by decide)) ?_
    simp only [exec, hcount', hone', hless]
    refine .next (turn_plain (i := ⟨.skipCond, 0x800⟩) (hadded.decodes rfl) (by decide)) ?_
    simp only [exec, skips_positive (show count < 2 ^ 15 by omega)]
    by_cases hmore : 0 < count
    · simp only [hmore, decide_true, if_true]
      refine .next (turn_plain (i := ⟨.jump, 3⟩) (hadded.decodes rfl) (by decide)) ?_
      exact .none _
    · simp only [hmore, decide_false, Bool.false_eq_true, if_false]
      refine .next (turn_plain (i := ⟨.jump, 0xC⟩) (hadded.decodes rfl) (by decide)) ?_
      exact .none _
  · have hsum : memory' 0x10 + BitVec.ofNat 16 (∑ i ∈ Finset.range (count + 1), i) =
        BitVec.ofNat 16 total := by
      rw [htotal', ← hmissing, Finset.sum_range_succ _ (count + 1), BitVec.ofNat_add, ← hac,
        BitVec.add_assoc, BitVec.add_comm ac]
    split
    · rename_i hmore
      exact ⟨rfl, rfl, hadded, hone', hsum, rfl, hmore, by omega⟩
    · rename_i hlast
      obtain rfl : count = 0 := by omega
      rw [zero_add, Finset.sum_range_one, BitVec.add_zero] at hsum
      exact ⟨rfl, hadded, hsum, rfl⟩

/-- The rounds that are left end with the total in place. -/
theorem counting_loop (total : Nat) (device : D) (count : Nat) :
    Triple turn (Counting total device count) (8 * count) (fun s =>
      s.pc = 0xC ∧ Holds countCode s.memory ∧ s.memory 0x10 = BitVec.ofNat 16 total ∧
        s.device = device) := by
  refine Triple.loop (fun count => 8 * count) Nat.lt_wfRel.wf (fun count => ?_) count
  cases count with
  | zero =>
    left
    intro s hs
    exact absurd hs.positive (lt_irrefl 0)
  | succ count =>
    by_cases hmore : 0 < count
    · right
      refine ⟨count, 8, Nat.lt_succ_self count, by omega, ?_⟩
      have hround := counting_round total count device
      simpa only [hmore, if_true] using hround
    · left
      have hround := counting_round total count device
      obtain rfl : count = 0 := by omega
      simpa only [lt_irrefl, if_false] using hround

theorem countSource_assembles : (assemble countSource).succeeded = true ∧
    (assemble countSource).origin = 0 ∧ (assemble countSource).words = countCode ++ [5, 0, 1] := by
  decide +kernel

/-- Behind the loop the total is printed. -/
theorem counted_prints {total : Nat} {device device' : D}
    (hout : output device (BitVec.ofNat 16 total) = (.ok (), device')) :
    Triple turn (fun s => s.pc = 0xC ∧ Holds countCode s.memory ∧
      s.memory 0x10 = BitVec.ofNat 16 total ∧ s.device = device) 2 (fun s =>
      s.pc = 0xE ∧ Holds countCode s.memory ∧ s.device = device') := by
  rintro ⟨ac, pc, memory, _⟩ ⟨rfl, hcode, htotal, rfl⟩
  simp only at hcode htotal
  refine ⟨⟨memory 0x10, 0xE, memory, device'⟩, ?_, rfl, hcode, rfl⟩
  refine .next (turn_plain (i := ⟨.load, 0x10⟩) (hcode.decodes rfl) (by decide)) ?_
  rw [← htotal] at hout
  refine .next (turn_output (x := 0) (hcode.decodes rfl) hout) ?_
  exact .none _

theorem counted_halts {device : D} (s : State D)
    (h : s.pc = 0xE ∧ Holds countCode s.memory ∧ s.device = device) :
    ∃ ended, turn s = .inl ended ∧ ended.1 = .halted ∧ ended.2.device = device := by
  obtain ⟨ac, pc, memory, _⟩ := s
  obtain ⟨rfl, hcode, rfl⟩ := h
  exact ⟨_, turn_halt (x := 0) (hcode.decodes rfl), rfl, rfl⟩

/-- With any positive count in place of the one it was written with, the counted loop prints the
sum of all numbers up to it, modulo the size of a word. -/
theorem count_runs (console : Console D) (device : D) (count : Nat)
    (hpositive : 0 < count) (hbounded : count < 2 ^ 15) :
    ∃ program start vm, loadSource countSource none = .ok program ∧
      program.install (.new device) = .ok start ∧
      let counted : MarieVMCore D :=
        { start with memory := Function.update start.memory 0xF (BitVec.ofNat 16 count) }
      (∀ other, MarieVMCore.Runs none counted other ↔ other = .terminated vm) ∧
      console.printed vm.ioDevice =
        console.printed device ++ [BitVec.ofNat 16 (count * (count + 1) / 2)] ∧
      console.words vm.ioDevice = console.words device ∧
      ∀ limit, counted.runBounded limit = .terminated vm ↔ 8 * count + 6 ≤ limit := by
  obtain ⟨program, start, hprogram, hinstall, hz, hfree, harch, hwords⟩ :=
    starts_at_zero device countSource_assembles
  have hgauss : ∑ i ∈ Finset.range (count + 1), i = count * (count + 1) / 2 := by
    rw [Finset.sum_range_id, Nat.add_sub_cancel, Nat.mul_comm]
  obtain ⟨device', hout, hsame, hprints⟩ :=
    console.output device (BitVec.ofNat 16 (∑ i ∈ Finset.range (count + 1), i))
  have hcode : Holds countCode start.memory := hwords.left
  have hpatched := hcode.update 0xF (by decide) (BitVec.ofNat 16 count)
  generalize hmemory : Function.update start.memory 0xF (BitVec.ofNat 16 count) = memory at hpatched
  have hcount : memory 0xF = BitVec.ofNat 16 count := by rw [← hmemory, Function.update_self]
  have hone : memory 0x11 = 1 := by
    rw [← hmemory, Function.update_of_ne (by decide)]
    exact hwords 17 1 rfl
  -- the start, with the total cleared and the count loaded
  have hcleared := hpatched.update 0x10 (by decide) 0
  have hstarts : Triple turn (fun s => s = ⟨0, 0, memory, device⟩) 3
      (Counting (∑ i ∈ Finset.range (count + 1), i) device count) := by
    rintro _ rfl
    refine ⟨⟨BitVec.ofNat 16 count, 3, Function.update memory 0x10 0, device⟩, ?_, rfl, rfl,
      hcleared, ?_, ?_, rfl, hpositive, hbounded⟩
    · refine .next (turn_plain (i := ⟨.loadImmi, 0⟩) (hpatched.decodes rfl) (by decide)) ?_
      refine .next (turn_store (x := 0x10) hpatched rfl (by decide)) ?_
      refine .next (turn_plain (i := ⟨.load, 0xF⟩) (hcleared.decodes rfl) (by decide)) ?_
      simp only [exec, Function.update_of_ne (show (0xF : MemoryAddress) ≠ 0x10 by decide), hcount]
      exact .none _
    · simp only [Function.update_of_ne (show (0x11 : MemoryAddress) ≠ 0x10 by decide), hone]
    · simp only [Function.update_self]
      exact BitVec.zero_add _
  obtain ⟨⟨stop, s'⟩, hends, rfl, hdevice⟩ := ((hstarts.seq (counting_loop _ device count)).seq
    (counted_prints hout)).ends rfl counted_halts
  have hrepresents : MarieVMCore.Represents ({ start with memory } : MarieVMCore D) _ :=
    .boundary hz
  have harch' : ({ start with memory } : MarieVMCore D).arch = ⟨0, 0, memory, device⟩ :=
    congrArg (fun s : State D => { s with memory }) harch
  rw [harch'] at hrepresents
  obtain ⟨outcome, hhands, hruns, hlimit⟩ := MarieVMCore.runs_stop hrepresents hfree hends
  obtain ⟨vm, rfl, hseen⟩ := hhands.ofHalted
  have hvm : vm.ioDevice = device' := (congrArg State.device hseen).trans hdevice
  refine ⟨program, start, vm, hprogram, hinstall, ?_⟩
  rw [hmemory, hvm, hprints, hsame, hgauss]
  refine ⟨hruns, rfl, rfl, fun limit => ?_⟩
  rw [hlimit]
  omega

theorem count_runs_five :
    ∃ program start vm, loadSource countSource none = .ok program ∧
      program.install (.new (VecIo.new [])) = .ok start ∧
      MarieVMCore.Runs none { start with memory := Function.update start.memory 0xF 5 }
        (.terminated vm) ∧
      vm.ioDevice.outputs = [15] := by
  obtain ⟨program, start, vm, hprogram, hinstall, hruns, hprints, -, -⟩ :=
    count_runs VecIo.console (VecIo.new []) 5 (by decide) (by decide)
  exact ⟨program, start, vm, hprogram, hinstall, (hruns _).mpr rfl, hprints⟩

end MarieRs.Cli
