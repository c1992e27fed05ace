import MarieRs.Vm.Prompt
import MarieRs.Vm.Refinement
import MarieRs.Vm.Stalls

namespace MarieRs.Vm

open Lib.Triples
open MarieVmIODevice

namespace Isa

variable {D : Type} [MarieVmIODevice D]

/-- The instructions that neither stop nor ask the device anything. -/
def Plain (op : Opcode) : Prop := op ≠ .halt ∧ op ≠ .input ∧ op ≠ .output

instance (op : Opcode) : Decidable (Plain op) := by
  unfold Plain
  infer_instance

theorem turn_plain {s : State D} {i : Instruction}
    (hi : Instruction.decode (s.memory s.pc) = some i) (hplain : Plain i.opcode) :
    turn s = .inr (exec i s) := by
  obtain ⟨hhalt, hinput, houtput⟩ := hplain
  rw [turn_goes, step_answered hi ⟨fun h => absurd h hinput, fun h => absurd h houtput⟩,
    if_neg hhalt]

theorem turn_input {s : State D} {x : MemoryAddress} {value : Word} {device : D}
    (hi : Instruction.decode (s.memory s.pc) = some ⟨.input, x⟩)
    (hpoll : pollInput s.device = (.ready (.ok value), device)) :
    turn s = .inr { s with ac := value, pc := s.pc + 1, device } := by
  have hanswers : Answers (Instruction.mk .input x).opcode s.device s.ac :=
    ⟨fun _ => ⟨value, device, hpoll⟩, nofun⟩
  rw [turn_goes, step_answered hi hanswers, if_neg nofun]
  simp only [exec, hpoll]

theorem turn_output {s : State D} {x : MemoryAddress} {device : D}
    (hi : Instruction.decode (s.memory s.pc) = some ⟨.output, x⟩)
    (hout : output s.device s.ac = (.ok (), device)) :
    turn s = .inr { s with pc := s.pc + 1, device } := by
  have hanswers : Answers (Instruction.mk .output x).opcode s.device s.ac :=
    ⟨nofun, fun _ => ⟨device, hout⟩⟩
  rw [turn_goes, step_answered hi hanswers, if_neg nofun]
  simp only [exec, hout]

theorem turn_halt {s : State D} {x : MemoryAddress}
    (hi : Instruction.decode (s.memory s.pc) = some ⟨.halt, x⟩) :
    turn s = .inl (.halted, s) := by
  rw [turn_stops, step_answered hi ⟨nofun, nofun⟩, if_pos rfl]

/-- A store outside of the display is of no concern to the device. -/
theorem displayed_below {device : D} {address : MemoryAddress} (h : address < DISPLAY_ORIGIN)
    (previous current : Word) : MarieVMCore.displayed device address previous current = device := by
  simp only [MarieVMCore.displayed, pixelIndex, if_pos h, ite_self]

end Isa

/-- A device that is never pending: it delivers the words it has, one after the other, and takes
every word that is output. Unless it is broken it only fails when it has no words left. -/
structure Console (D : Type) [MarieVmIODevice D] where
  words : D → List Word
  printed : D → List Word
  broken : D → Prop
  poll : ∀ d, (∃ value d', pollInput d = (.ready (.ok value), d') ∧ words d = value :: words d' ∧
      printed d' = printed d ∧ (broken d' → broken d)) ∨
    ∃ error d', pollInput d = (.ready (.error error), d') ∧ printed d' = printed d ∧
      (words d = [] ∨ broken d)
  output : ∀ d value, ∃ d', output d value = (.ok (), d') ∧ words d' = words d ∧
    printed d' = printed d ++ [value]

theorem vecIo_poll (io : VecIo) :
    (∃ value io', pollInput io = (.ready (.ok value), io') ∧ io.inputs = value :: io'.inputs ∧
      io'.outputs = io.outputs ∧ (False → False)) ∨
    ∃ error io', pollInput io = (.ready (.error error), io') ∧ io'.outputs = io.outputs ∧
      (io.inputs = [] ∨ False) := by
  obtain ⟨inputs, outputs⟩ := io
  cases inputs with
  | nil => exact .inr ⟨.eof, ⟨[], outputs⟩, rfl, rfl, .inl rfl⟩
  | cons value rest => exact .inl ⟨value, ⟨rest, outputs⟩, rfl, rfl, rfl, id⟩

theorem vecIo_output (io : VecIo) (value : Word) :
    ∃ io', output io value = (.ok (), io') ∧ io'.inputs = io.inputs ∧
      io'.outputs = io.outputs ++ [value] :=
  ⟨_, rfl, rfl, rfl⟩

def VecIo.console : Console VecIo where
  words := VecIo.inputs
  printed := VecIo.outputs
  broken _ := False
  poll := vecIo_poll
  output := vecIo_output

/-- The words that are still to be taken from the terminal. -/
def StdinIo.words (io : StdinIo) : List Word := io.pending ++ io.mode.typedWords io.stdin

/-- A read from the terminal is going to fail. -/
def StdinIo.Broken (io : StdinIo) : Prop := ∃ error, .error error ∈ io.stdin

theorem stdinIo_poll (io : StdinIo) :
    (∃ value io', pollInput io = (.ready (.ok value), io') ∧ io.words = value :: io'.words ∧
      io'.printed = io.printed ∧ (io'.Broken → io.Broken)) ∨
    ∃ error io', pollInput io = (.ready (.error error), io') ∧ io'.printed = io.printed ∧
      (io.words = [] ∨ io.Broken) := by
  have hprompted := promptStdin_prompted io.mode io.pending io.stdin
  simp only [pollInput]
  generalize promptStdin io.mode io.pending io.stdin = result at hprompted
  cases hprompted with
  | takes h hrest =>
    refine .inl ⟨_, _, rfl, h, rfl, ?_⟩
    rintro ⟨error, herror⟩
    exact ⟨error, hrest.subset herror⟩
  | ends h => exact .inr ⟨_, _, rfl, rfl, .inl h⟩
  | fails h hrest =>
    exact .inr ⟨_, _, rfl, rfl, .inr ⟨_, hrest.subset List.mem_cons_self⟩⟩

theorem stdinIo_output (io : StdinIo) (value : Word) :
    ∃ io', output io value = (.ok (), io') ∧ io'.words = io.words ∧
      io'.printed = io.printed ++ [value] :=
  ⟨_, rfl, rfl, rfl⟩

def StdinIo.console : Console StdinIo where
  words := StdinIo.words
  printed := StdinIo.printed
  broken := StdinIo.Broken
  poll := stdinIo_poll
  output := stdinIo_output

namespace MarieVMCore

variable {D : Type} [MarieVmIODevice D]

/-- No breakpoint is set. -/
def Free (vm : MarieVMCore D) : Prop := vm.breakpoints.contains = fun _ => false

theorem Free.turn {vm vm' : MarieVMCore D} (h : Free vm) (hturn : turn vm = .inr vm') :
    Free vm' := by
  have hsame := vm.step_breakpoints
  rw [turn_goes.mp hturn] at hsame
  exact (congrArg BreakpointSet.contains hsame).trans h

theorem runPass_free {budget : Option Nat} {executed : Nat} {vm : MarieVMCore D} (h : Free vm)
    (hlimit : ∀ limit ∈ budget, executed < limit) :
    runPass budget executed vm = passed vm.step := by
  have hany : ¬budget.any (fun limit => decide (executed ≥ limit)) = true := by
    cases budget with
    | none => simp
    | some limit =>
      have hlt := hlimit limit rfl
      simpa using hlt
  have hbreak : ¬(executed > 0 ∧ vm.atBreakpoint = true) := by
    rw [atBreakpoint, show vm.breakpoints.contains = fun _ => false from h]
    simp
  rw [runPass, if_neg hany, if_neg hbreak]
  rfl

/-- A run that has the budget for them takes the turns. -/
theorem runInner_turns {budget : Option Nat} {n executed : Nat} {vm vm' : MarieVMCore D}
    {outcome : RunOutcome D} (h : Free vm) (hturns : Turns turn n vm vm')
    (hlimit : ∀ limit ∈ budget, executed + n ≤ limit)
    (hrest : Free vm' → RunInner budget (executed + n) vm' outcome) :
    RunInner budget executed vm outcome := by
  induction hturns generalizing executed with
  | none => exact hrest h
  | @next n vm vm'' vm' hturn hturns ih =>
    have hpass : runPass budget executed vm = passed vm.step := runPass_free h fun limit hmem => by
      have hle := hlimit limit hmem
      omega
    rw [turn_goes.mp hturn] at hpass
    refine .goesOn hpass (ih (h.turn hturn) (fun limit hmem => ?_) ?_)
    · have hle := hlimit limit hmem
      omega
    · rw [Nat.add_assoc, Nat.add_comm 1 n]
      exact hrest

theorem Runs.unique {budget : Option Nat} {vm : MarieVMCore D} {outcome other : RunOutcome D}
    (h : Runs budget vm outcome) (h' : Runs budget vm other) : outcome = other := by
  obtain ⟨n, hn⟩ := runInner_ends.mp h
  obtain ⟨m, hm⟩ := runInner_ends.mp h'
  exact (hn.unique hm).2

theorem Stopped.handsBack {ended : Continuation × MarieVMCore D} {stop : Isa.Stop}
    {s : Isa.State D} (h : Stopped ended (stop, s)) :
    ∃ outcome, passed ended = .inl outcome ∧ HandsBack outcome (stop.outcome s) ∧
      ∀ vm, outcome ≠ .suspended vm .stepLimit := by
  obtain ⟨result, vm⟩ := ended
  obtain ⟨hreport, hrepresents, harch⟩ := h
  change result = _ at hreport
  subst hreport
  cases stop with
  | halted => exact ⟨_, rfl, .terminated hrepresents harch, nofun⟩
  | awaitingInput => exact ⟨_, rfl, .awaitingInput hrepresents harch, nofun⟩
  | faulted fault => exact ⟨_, rfl, .faulted hrepresents harch, nofun⟩

theorem HandsBack.ofHalted {outcome : RunOutcome D} {s : Isa.State D}
    (h : HandsBack outcome (Isa.Stop.outcome .halted s)) :
    ∃ vm, outcome = .terminated vm ∧ vm.arch = { s with pc := s.pc + 1 } := by
  cases h with
  | terminated _ harch => exact ⟨_, rfl, harch⟩

theorem HandsBack.ofFaulted {outcome : RunOutcome D} {s : Isa.State D} {fault : Fault}
    (h : HandsBack outcome (Isa.Stop.outcome (.faulted fault) s)) :
    ∃ vm, outcome = .faulted vm fault ∧ vm.arch = { s with pc := s.pc + 1 } := by
  cases h with
  | faulted _ harch => exact ⟨_, rfl, harch⟩

/-- Where the documented machine stops after `n` instructions, a run without breakpoints stops
alike if it has the budget for one more. -/
theorem runs_stop {vm : MarieVMCore D} {s s' : Isa.State D} {stop : Isa.Stop} {n : Nat}
    (h : Represents vm s) (hfree : Free vm) (hends : Ends Isa.turn n s (stop, s')) :
    ∃ outcome, HandsBack outcome (stop.outcome s') ∧
      (∀ other, Runs none vm other ↔ other = outcome) ∧
      ∀ limit, vm.runBounded limit = outcome ↔ n < limit := by
  obtain ⟨ended, ⟨last, hturns, hend⟩, hstopped⟩ := (turn_simulates.ends_iff h).2 _ hends
  obtain ⟨outcome, hpassed, hhands, hlimited⟩ := hstopped.handsBack
  have hlast : last.step = ended := (turn_stops.mp (hend : turn last = .inl (ended.1, ended.2))).1
  have hruns : ∀ budget : Option Nat, (∀ limit ∈ budget, n < limit) → Runs budget vm outcome := by
    intro budget hbudget
    refine runInner_turns hfree hturns (fun limit hmem => ?_) fun hfree' => .ends ?_
    · have hlt := hbudget limit hmem
      omega
    · rw [Nat.zero_add, runPass_free hfree' hbudget, hlast, hpassed]
  refine ⟨outcome, hhands, fun other => ⟨fun hother => ?_, ?_⟩, fun limit => ⟨?_, ?_⟩⟩
  · exact hother.unique (hruns none (by simp))
  · rintro rfl
    exact hruns none (by simp)
  · intro hbounded
    by_contra hle
    -- the turns within the budget are taken, and no other
    obtain ⟨rest, rfl⟩ : ∃ rest, n = limit + rest := ⟨n - limit, by omega⟩
    obtain ⟨middle, hmiddle, -⟩ := hturns.split
    have hcut : Runs (some limit) vm (.suspended middle .stepLimit) := by
      refine runInner_turns hfree hmiddle (by simp) fun _ => .ends ?_
      rw [runPass, if_pos (by simp)]
    rw [runs_bounded.mp hcut] at hbounded
    exact hlimited middle hbounded.symm
  · intro hlimit
    exact runs_bounded.mp (hruns (some limit) (by simpa using hlimit))

end MarieVMCore

end MarieRs.Vm
