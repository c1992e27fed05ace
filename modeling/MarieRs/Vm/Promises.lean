import MarieRs.Vm.Api

namespace MarieRs.Vm

inductive Stream where
  | input | output
  deriving DecidableEq, Repr

/-- A call that a device got about one of its streams, with its answer. -/
inductive DeviceEvent where
  | passed (stream : Stream) (value : Word)
  | stopped (stream : Stream)
  | recalled (stream : Stream) (value : Word) (accepted : Bool)
  deriving DecidableEq, Repr

/-- What has passed through a stream and was not taken back, latest first. The log is latest
first too. -/
def outstanding (stream : Stream) : List DeviceEvent → List Word
  | [] => []
  | .passed s value :: log =>
    if s = stream then value :: outstanding stream log else outstanding stream log
  | .stopped _ :: log => outstanding stream log
  | .recalled s _ accepted :: log =>
    if s = stream ∧ accepted then (outstanding stream log).tail else outstanding stream log

/-- Nothing is taken back but the latest value outstanding at that moment. -/
def Honest (log : List DeviceEvent) : Prop :=
  ∀ newer stream value accepted older, log = newer ++ .recalled stream value accepted :: older →
    (outstanding stream older).head? = some value

/-- The values that the device delivered, latest first. -/
def delivered (log : List DeviceEvent) : List Word :=
  log.filterMap fun event =>
    match event with
    | .passed .input value => some value
    | _ => none

theorem Honest.nil : Honest [] := by
  intro newer stream value accepted older h
  have hlength := congrArg List.length h
  simp at hlength

theorem Honest.cons {log : List DeviceEvent} {event : DeviceEvent} (h : Honest log)
    (hevent : ∀ stream value accepted, event = .recalled stream value accepted →
      (outstanding stream log).head? = some value) : Honest (event :: log) := by
  intro newer stream value accepted older heq
  cases newer with
  | nil =>
    rw [List.nil_append, List.cons.injEq] at heq
    obtain ⟨hfirst, rfl⟩ := heq
    exact hevent stream value accepted hfirst
  | cons first newer =>
    rw [List.cons_append, List.cons.injEq] at heq
    exact h newer stream value accepted older heq.2

/-- Any device, with a log of the calls about its streams. -/
structure Logged (D : Type) where
  device : D
  log : List DeviceEvent

instance {D : Type} [MarieVmIODevice D] : MarieVmIODevice (Logged D) where
  pollInput io :=
    match MarieVmIODevice.pollInput io.device with
    | (.pending, device) => (.pending, ⟨device, .stopped .input :: io.log⟩)
    | (.ready (.error e), device) => (.ready (.error e), ⟨device, .stopped .input :: io.log⟩)
    | (.ready (.ok value), device) =>
      (.ready (.ok value), ⟨device, .passed .input value :: io.log⟩)
  output io value :=
    match MarieVmIODevice.output io.device value with
    | (.error e, device) => (.error e, ⟨device, .stopped .output :: io.log⟩)
    | (.ok (), device) => (.ok (), ⟨device, .passed .output value :: io.log⟩)
  unreadInput io value :=
    let (accepted, device) := MarieVmIODevice.unreadInput io.device value
    (accepted, ⟨device, .recalled .input value accepted :: io.log⟩)
  unwriteOutput io value :=
    let (accepted, device) := MarieVmIODevice.unwriteOutput io.device value
    (accepted, ⟨device, .recalled .output value accepted :: io.log⟩)
  displayWrite io index pixel :=
    ⟨MarieVmIODevice.displayWrite io.device index pixel, io.log⟩

/-- The register that a transfer overwrites. -/
def MicroOp.overwrites : MicroOp → Option Register
  | .transfer target _ => some target
  | _ => none

/-- What an effect moved through a stream. -/
def Effect.moved (effect : Effect) : Option (Stream × Word) :=
  match effect with
  | .inputRead _ value => some (.input, value)
  | .outputWritten value => some (.output, value)
  | _ => Option.none

def Effect.movedOn (stream : Stream) (effect : Effect) : Option Word :=
  effect.moved.bind fun move => if move.1 = stream then some move.2 else Option.none

/-- The call that logs a move. -/
def Effect.logged (effect : Effect) : List DeviceEvent :=
  (effect.moved.map fun move => .passed move.1 move.2).toList

/-- What the entries of a journal moved through a stream, latest first. -/
def moves (stream : Stream) (entries : List Entry) : List Word :=
  entries.reverse.filterMap fun entry => entry.effect.movedOn stream

theorem moves_concat (stream : Stream) (entries : List Entry) (entry : Entry) :
    moves stream (entries ++ [entry]) =
      (entry.effect.movedOn stream).toList ++ moves stream entries := by
  rw [moves, List.reverse_concat, List.filterMap_cons]
  cases entry.effect.movedOn stream with
  | none => rfl
  | some value => rfl

theorem moves_kept {stream : Stream} {kept entries : List Entry} (h : kept <:+ entries) :
    moves stream kept <+: moves stream entries :=
  (List.reverse_prefix.mpr h).filterMap _

theorem outstanding_logged (stream : Stream) (effect : Effect) (log : List DeviceEvent) :
    outstanding stream (effect.logged ++ log) =
      (effect.movedOn stream).toList ++ outstanding stream log := by
  rw [Effect.logged, Effect.movedOn]
  cases effect.moved with
  | none => rfl
  | some move =>
    simp only [Option.map_some, Option.toList_some, List.singleton_append, outstanding,
      Option.bind_some]
    split
    · rfl
    · rfl

theorem delivered_logged (effect : Effect) (log : List DeviceEvent) :
    delivered (effect.logged ++ log) =
      (effect.movedOn .input).toList ++ delivered log := by
  cases effect with
  | none | register | memory | inputRead | outputWritten => rfl

theorem Honest.logged {log : List DeviceEvent} (h : Honest log) (effect : Effect) :
    Honest (effect.logged ++ log) := by
  rw [Effect.logged]
  cases effect.moved with
  | none => exact h
  | some move => exact h.cons fun _ _ _ hevent => by cases hevent

namespace MarieVMCore

variable {D : Type}

/-- No operation of any cycle transfers to `IN`. -/
theorem currentMicroOp_overwrites {vm : MarieVMCore D} {op : MicroOp}
    (h : vm.currentMicroOp = some op) : op.overwrites ≠ some .in_ := by
  have hfetch : ∀ op ∈ FETCH_DECODE, op.overwrites ≠ some .in_ := by decide
  have hexecute : ∀ opcode : Opcode, ∀ op ∈ execute opcode, op.overwrites ≠ some .in_ := by
    intro opcode
    cases opcode <;> decide
  rw [currentMicroOp] at h
  split at h
  · rename_i hop
    cases h
    exact hfetch _ (List.mem_of_getElem? hop)
  · split at h
    · cases h
    · exact hexecute _ _ (List.mem_of_getElem? h)

variable [MarieVmIODevice D]

theorem displayed_log (io : Logged D) (address : MemoryAddress) (previous current : Word) :
    (displayed io address previous current).log = io.log := by
  unfold displayed
  split
  · rfl
  · split
    · rfl
    · rfl

/-- A completed operation logs what it moved, and nothing else. -/
theorem execute_log {vm vm' : MarieVMCore (Logged D)} {op : MicroOp} {effect : Effect}
    (h : vm.executeMicroOp op = (.ok effect, vm')) :
    vm'.ioDevice.log = effect.logged ++ vm.ioDevice.log := by
  cases op <;> simp only [executeMicroOp, executeMicroOp.done, writeRegister, writeMemory_eq] at h
  case readInput =>
    simp only [MarieVmIODevice.pollInput] at h
    split at h
    · cases h
    · cases h
    · rename_i heq
      split at heq
      · cases heq
      · cases heq
      · cases heq
        cases h
        rfl
  case writeOutput =>
    simp only [MarieVmIODevice.output] at h
    split at h
    · cases h
    · rename_i heq
      split at heq
      · cases heq
      · cases heq
        cases h
        rfl
  case writeMemory =>
    cases h
    rw [displayed_log]
    rfl
  all_goals
    repeat' split at h
    all_goals
      cases h
      try rfl

/-- A stopped operation logs at most that it was refused. -/
theorem execute_stopped_log {vm vm' : MarieVMCore (Logged D)} {op : MicroOp} {stop : MicroOutcome}
    (h : vm.executeMicroOp op = (.error stop, vm')) :
    vm'.ioDevice.log = vm.ioDevice.log ∨
      ∃ stream, vm'.ioDevice.log = .stopped stream :: vm.ioDevice.log := by
  cases op <;> simp only [executeMicroOp, executeMicroOp.done] at h
  case readInput =>
    simp only [MarieVmIODevice.pollInput] at h
    split at h
    · rename_i heq
      cases h
      split at heq
      · cases heq
        exact .inr ⟨_, rfl⟩
      · cases heq
      · cases heq
    · rename_i heq
      cases h
      split at heq
      · cases heq
      · cases heq
        exact .inr ⟨_, rfl⟩
      · cases heq
    · cases h
  case writeOutput =>
    simp only [MarieVmIODevice.output] at h
    split at h
    · rename_i heq
      cases h
      split at heq
      · cases heq
        exact .inr ⟨_, rfl⟩
      · cases heq
    · cases h
  all_goals
    repeat' split at h
    all_goals
      cases h
      try exact .inl rfl

/-- The operation that reads the device changes `IN` to what the device delivered. -/
theorem execute_input {vm vm' : MarieVMCore D} {op : MicroOp} {effect : Effect}
    (h : vm.executeMicroOp op = (.ok effect, vm')) :
    (op = .readInput ∧ effect.movedOn .input = some vm'.registers.input) ∨
      (op ≠ .readInput ∧ effect.movedOn .input = none ∧
        (op.overwrites ≠ some .in_ → vm'.registers.input = vm.registers.input)) := by
  cases op <;> simp only [executeMicroOp, executeMicroOp.done, writeRegister, writeMemory_eq] at h
  case readInput =>
    split at h
    · cases h
    · cases h
    · cases h
      exact .inl ⟨rfl, rfl⟩
  case transfer target source =>
    cases h
    refine .inr ⟨by simp, rfl, fun hother => ?_⟩
    cases target <;> first | rfl | exact absurd rfl hother
  all_goals
    repeat' split at h
    all_goals
      cases h
      try exact .inr ⟨by simp, rfl, fun _ => rfl⟩

/-- What a step back asks of the device, for what the latest entry moved. -/
theorem microStepBack_log {vm : MarieVMCore (Logged D)} {entry : Entry}
    (hlast : vm.history.last = some entry) :
    (entry.effect.moved = none → vm.microStepBack.2.history = vm.history.pop ∧
      vm.microStepBack.2.ioDevice.log = vm.ioDevice.log) ∧
    ∀ stream value, entry.effect.moved = some (stream, value) → ∃ accepted,
      vm.microStepBack.2.ioDevice.log = .recalled stream value accepted :: vm.ioDevice.log ∧
      vm.microStepBack.2.history = if accepted then vm.history.pop else vm.history := by
  obtain ⟨control, op, effect⟩ := entry
  cases effect with
  | none | register register previous =>
    refine ⟨fun _ => ?_, fun _ _ h => by cases h⟩
    simp only [microStepBack, hlast, restore, and_self]
  | memory address previous =>
    refine ⟨fun _ => ?_, fun _ _ h => by cases h⟩
    simp only [microStepBack, hlast, notifyDisplay_eq, restore, displayed_log, and_self]
  | inputRead previous value =>
    refine ⟨fun h => absurd h (by simp [Effect.moved]), ?_⟩
    rintro stream recalled ⟨⟩
    rcases hdevice : MarieVmIODevice.unreadInput vm.ioDevice.device value with ⟨accepted, device⟩
    have hcall : MarieVmIODevice.unreadInput vm.ioDevice value =
        (accepted, ⟨device, .recalled .input value accepted :: vm.ioDevice.log⟩) := by
      simp only [MarieVmIODevice.unreadInput, hdevice]
    refine ⟨accepted, ?_⟩
    cases accepted with
    | false =>
      simp [microStepBack, hlast, hcall]
    | true =>
      simp [microStepBack, hlast, hcall, restore]
  | outputWritten value =>
    refine ⟨fun h => absurd h (by simp [Effect.moved]), ?_⟩
    rintro stream recalled ⟨⟩
    rcases hdevice : MarieVmIODevice.unwriteOutput vm.ioDevice.device value with
      ⟨accepted, device⟩
    have hcall : MarieVmIODevice.unwriteOutput vm.ioDevice value =
        (accepted, ⟨device, .recalled .output value accepted :: vm.ioDevice.log⟩) := by
      simp only [MarieVmIODevice.unwriteOutput, hdevice]
    refine ⟨accepted, ?_⟩
    cases accepted with
    | false =>
      simp [microStepBack, hlast, hcall]
    | true =>
      simp [microStepBack, hlast, hcall, restore]

theorem microStep_stop_log {vm vm' : MarieVMCore (Logged D)} {out : MicroOutcome}
    (h : vm.microStep = (out, vm')) (hx : ∀ op, out ≠ .executed op) :
    vm'.ioDevice.log = vm.ioDevice.log ∨
      ∃ stream, vm'.ioDevice.log = .stopped stream :: vm.ioDevice.log := by
  cases hop : vm.currentMicroOp with
  | none =>
    simp only [microStep, begin_currentMicroOp, hop] at h
    cases h
    rw [begin_frame]
    exact .inl rfl
  | some op =>
    rcases he : vm.beginInstruction.executeMicroOp op with ⟨outcome, core⟩
    cases outcome with
    | ok effect =>
      rw [microStep_of_execute hop he] at h
      cases h
      exact absurd rfl (hx op)
    | error stop =>
      rw [microStep_of_error hop he] at h
      cases h
      have hlog := execute_stopped_log he
      rw [begin_frame] at hlog
      exact hlog

/-- The journal agrees with the log of the device. -/
structure KeepsPromises (vm : MarieVMCore (Logged D)) : Prop where
  bounded : vm.history.entries.length ≤ vm.history.limit
  nested : ∀ stream, moves stream vm.history.entries <+: outstanding stream vm.ioDevice.log
  honest : Honest vm.ioDevice.log

/-- Recording an entry keeps a journal nested in a log that got its move. -/
theorem record_nested {history : History} {entry : Entry} {log : List DeviceEvent}
    (hbounded : history.entries.length ≤ history.limit) {stream : Stream}
    (h : moves stream history.entries <+: outstanding stream log) :
    moves stream (history.record entry).entries <+:
      outstanding stream (entry.effect.logged ++ log) := by
  have hkept : ∀ kept, kept <:+ history.entries → moves stream (kept ++ [entry]) <+:
      outstanding stream (entry.effect.logged ++ log) := by
    intro kept hkept
    rw [moves_concat, outstanding_logged, List.prefix_append_right_inj]
    exact (moves_kept hkept).trans h
  unfold History.record
  split
  · rename_i hzero
    have hnil : history.entries = [] := List.eq_nil_of_length_eq_zero (by omega)
    rw [hnil]
    exact List.nil_prefix
  · split
    · exact hkept _ (List.tail_suffix _)
    · exact hkept _ List.suffix_rfl

/-- What is nested below a value that is taken back is nested without it. -/
theorem recalled_nested {stream other : Stream} {value : Word} {below : List Word}
    {log : List DeviceEvent}
    (h : (if stream = other then some value else none).toList ++ below <+: outstanding other log) :
    below <+: outstanding other (.recalled stream value true :: log) := by
  by_cases hsame : stream = other
  · obtain ⟨rest, hrest⟩ := h
    rw [if_pos hsame] at hrest
    simp only [outstanding, hsame, and_self, if_true]
    rw [← hrest]
    exact ⟨rest, rfl⟩
  · rw [if_neg hsame] at h
    simp only [outstanding, hsame, false_and, if_false]
    exact h

theorem KeepsPromises.microStep {vm : MarieVMCore (Logged D)} (h : KeepsPromises vm) :
    KeepsPromises vm.microStep.2 := by
  rcases hs : vm.microStep with ⟨out, vm'⟩
  rcases microStep_cases hs with ⟨op, effect, core, rfl, -, he, rfl⟩ | ⟨hstop, hsame⟩
  · have hlog := execute_log he
    have hhistory := (execute_frame he).2.1
    rw [begin_frame] at hlog hhistory
    change core.history = vm.history at hhistory
    refine ⟨?_, fun stream => ?_, ?_⟩
    · change (core.history.record _).entries.length ≤ (core.history.record _).limit
      rw [hhistory]
      exact History.record_bounded h.bounded
    · change moves stream (core.history.record ⟨vm.control, op, effect⟩).entries <+:
        outstanding stream core.ioDevice.log
      rw [hhistory, hlog]
      exact record_nested h.bounded (h.nested stream)
    · change Honest core.ioDevice.log
      rw [hlog]
      exact h.honest.logged effect
  · have hhistory : vm'.history = vm.history := by rw [hsame]
    refine ⟨by rw [hhistory]; exact h.bounded, fun stream => ?_, ?_⟩
    · rw [hhistory]
      rcases microStep_stop_log hs hstop with hlog | ⟨_, hlog⟩
      · rw [hlog]
        exact h.nested stream
      · rw [hlog]
        exact h.nested stream
    · rcases microStep_stop_log hs hstop with hlog | ⟨_, hlog⟩
      · rw [hlog]
        exact h.honest
      · rw [hlog]
        exact h.honest.cons fun _ _ _ hevent => by cases hevent

theorem KeepsPromises.microStepBack {vm : MarieVMCore (Logged D)} (h : KeepsPromises vm) :
    KeepsPromises vm.microStepBack.2 := by
  cases hlast : vm.history.last with
  | none =>
    have hsame : vm.microStepBack.2 = vm := by simp only [MarieVMCore.microStepBack, hlast]
    rw [hsame]
    exact h
  | some entry =>
    obtain ⟨hstill, hmoved⟩ := microStepBack_log hlast
    have hentries : vm.history.entries = vm.history.entries.dropLast ++ [entry] := by
      obtain ⟨entries, hentries⟩ := List.getLast?_eq_some_iff.mp hlast
      rw [hentries, List.dropLast_concat]
    have hpop : vm.history.pop.entries.length ≤ vm.history.pop.limit := by
      have hbounded := h.bounded
      change vm.history.entries.dropLast.length ≤ vm.history.limit
      rw [List.length_dropLast]
      omega
    have hnested : ∀ stream, (entry.effect.movedOn stream).toList ++
        moves stream vm.history.pop.entries <+: outstanding stream vm.ioDevice.log := by
      intro stream
      have hstream := h.nested stream
      rw [hentries, moves_concat] at hstream
      exact hstream
    cases hmove : entry.effect.moved with
    | none =>
      obtain ⟨hhistory, hlog⟩ := hstill hmove
      have hon : ∀ stream, entry.effect.movedOn stream = none := by
        intro stream
        rw [Effect.movedOn, hmove, Option.bind_none]
      refine ⟨?_, fun stream => ?_, ?_⟩
      · rw [hhistory]
        exact hpop
      · rw [hhistory, hlog]
        have hstream := hnested stream
        rw [hon] at hstream
        exact hstream
      · rw [hlog]
        exact h.honest
    | some move =>
      obtain ⟨stream, value⟩ := move
      obtain ⟨accepted, hlog, hhistory⟩ := hmoved stream value hmove
      have hon : ∀ other, entry.effect.movedOn other =
          if stream = other then some value else none := by
        intro other
        rw [Effect.movedOn, hmove, Option.bind_some]
      have hhead : (outstanding stream vm.ioDevice.log).head? = some value := by
        obtain ⟨rest, hrest⟩ := hnested stream
        rw [hon, if_pos rfl] at hrest
        rw [← hrest]
        rfl
      refine ⟨?_, fun other => ?_, ?_⟩
      · rw [hhistory]
        split
        · exact hpop
        · exact h.bounded
      · rw [hhistory, hlog]
        have hother := hnested other
        rw [hon] at hother
        cases accepted with
        | false => simpa [outstanding] using h.nested other
        | true => exact recalled_nested hother
      · rw [hlog]
        refine h.honest.cons ?_
        rintro _ _ _ ⟨⟩
        exact hhead

/-- What a micro-step latches in `IN`. -/
def latches (vm : MarieVMCore D) : List Word :=
  if vm.microStep.1 = .executed .readInput then [vm.microStep.2.registers.input] else []

/-- Any sequence of steps forward and back and of journal commands, with the values latched
in `IN` on the way, latest first. -/
inductive Debugged (start : MarieVMCore D) : List Word → MarieVMCore D → Prop where
  | start : Debugged start [] start
  | microStep {latched : List Word} {vm : MarieVMCore D} (h : Debugged start latched vm) :
    Debugged start (vm.latches ++ latched) vm.microStep.2
  | microStepBack {latched : List Word} {vm : MarieVMCore D} (h : Debugged start latched vm) :
    Debugged start latched vm.microStepBack.2
  | setHistoryLimit {latched : List Word} {vm : MarieVMCore D} (limit : Nat)
    (h : Debugged start latched vm) : Debugged start latched (vm.setHistoryLimit limit)
  | clearHistory {latched : List Word} {vm : MarieVMCore D} (h : Debugged start latched vm) :
    Debugged start latched vm.clearHistory

theorem Debugged.keepsPromises {start vm : MarieVMCore (Logged D)} {latched : List Word}
    (h : Debugged start latched vm) (hstart : KeepsPromises start) : KeepsPromises vm := by
  induction h with
  | start => exact hstart
  | microStep h ih => exact ih.microStep
  | microStepBack h ih => exact ih.microStepBack
  | @setHistoryLimit latched vm limit h ih =>
    have hentries := vm.history.setLimit_entries limit
    refine ⟨?_, fun stream => ?_, ih.honest⟩
    · change (vm.history.setLimit limit).entries.length ≤ limit
      rw [hentries, List.length_drop]
      omega
    · change moves stream (vm.history.setLimit limit).entries <+: _
      rw [hentries]
      exact (moves_kept (List.drop_suffix _ _)).trans (ih.nested stream)
  | clearHistory h ih => exact ⟨Nat.zero_le _, fun _ => List.nil_prefix, ih.honest⟩

/-- A delivery is logged by the micro-step that latches it. -/
theorem microStep_delivered (vm : MarieVMCore (Logged D)) :
    delivered vm.microStep.2.ioDevice.log = vm.latches ++ delivered vm.ioDevice.log := by
  rw [latches]
  rcases hs : vm.microStep with ⟨out, vm'⟩
  rcases microStep_cases hs with ⟨op, effect, core, rfl, -, he, rfl⟩ | ⟨hstop, -⟩
  · have hlog := execute_log he
    rw [begin_frame] at hlog
    change delivered core.ioDevice.log = _
    rw [hlog, delivered_logged]
    rcases execute_input he with ⟨rfl, hmoved⟩ | ⟨hne, hmoved, -⟩
    · rw [hmoved, if_pos rfl]
      rfl
    · rw [hmoved, if_neg fun hop => hne (MicroOutcome.executed.inj hop)]
      rfl
  · rw [if_neg (hstop _)]
    rcases microStep_stop_log hs hstop with hlog | ⟨_, hlog⟩
    · rw [hlog]
      rfl
    · rw [hlog]
      rfl

theorem microStepBack_delivered (vm : MarieVMCore (Logged D)) :
    delivered vm.microStepBack.2.ioDevice.log = delivered vm.ioDevice.log := by
  cases hlast : vm.history.last with
  | none => simp only [microStepBack, hlast]
  | some entry =>
    obtain ⟨hstill, hmoved⟩ := microStepBack_log hlast
    cases hmove : entry.effect.moved with
    | none => rw [(hstill hmove).2]
    | some move =>
      obtain ⟨accepted, hlog, -⟩ := hmoved move.1 move.2 hmove
      rw [hlog]
      rfl

theorem Debugged.latched {start vm : MarieVMCore (Logged D)} {latched : List Word}
    (h : Debugged start latched vm) (hlog : start.ioDevice.log = []) :
    latched = delivered vm.ioDevice.log := by
  induction h with
  | start =>
    rw [hlog]
    rfl
  | @microStep latched vm h ih => rw [microStep_delivered, ← ih]
  | @microStepBack latched vm h ih => rw [microStepBack_delivered, ← ih]
  | setHistoryLimit limit h ih => exact ih
  | clearHistory h ih => exact ih

/-- Only a delivery changes `IN` in a step forward. -/
theorem microStep_input {vm : MarieVMCore D} (h : vm.microStep.1 ≠ .executed .readInput) :
    vm.microStep.2.registers.input = vm.registers.input := by
  rcases hs : vm.microStep with ⟨out, vm'⟩
  rw [hs] at h
  rcases microStep_cases hs with ⟨op, effect, core, rfl, hop, he, rfl⟩ | ⟨-, hsame⟩
  · rcases execute_input he with ⟨rfl, -⟩ | ⟨-, -, hkept⟩
    · exact absurd rfl h
    · have hinput := hkept (currentMicroOp_overwrites hop)
      rw [begin_frame] at hinput
      exact hinput
  · rw [hsame]

/-- A refused step back changes nothing but the device, and every later attempt asks for the
same value of the same stream. -/
theorem microStepBack_refused {vm : MarieVMCore (Logged D)} {error : StepBackError}
    (h : vm.microStepBack.1 = .error error) (hsome : error ≠ .noHistory) :
    vm.microStepBack.2 = { vm with ioDevice := vm.microStepBack.2.ioDevice } ∧
      ∃ stream value, ∀ device : Logged D, ∃ accepted,
        ({ vm with ioDevice := device } : MarieVMCore (Logged D)).microStepBack.2.ioDevice.log =
          .recalled stream value accepted :: device.log := by
  refine ⟨?_, ?_⟩
  · rcases vm.microStepBack_cases with ⟨entry, -, hok, -⟩ | ⟨_, -, hsame⟩
    · rw [h] at hok
      cases hok
    · exact hsame
  · cases hlast : vm.history.last with
    | none =>
      simp only [microStepBack, hlast] at h
      cases h
      exact absurd rfl hsome
    | some entry =>
      obtain ⟨⟨stream, value⟩, hmove⟩ : ∃ move, entry.effect.moved = some move := by
        obtain ⟨control, op, effect⟩ := entry
        cases effect with
        | none | register | memory =>
          simp only [microStepBack, hlast] at h
          cases h
        | inputRead | outputWritten => exact ⟨_, rfl⟩
      refine ⟨stream, value, fun device => ?_⟩
      have hask : ({ vm with ioDevice := device } : MarieVMCore (Logged D)).history.last =
        some entry := hlast
      obtain ⟨accepted, hlog, -⟩ := (microStepBack_log hask).2 stream value hmove
      exact ⟨accepted, hlog⟩

/-- What the machine promises to its device. -/
structure Promised (latched : List Word) (vm : MarieVMCore (Logged D)) : Prop where
  /-- What is taken back is the latest value that passed and was not taken back. -/
  rewinds : ∀ newer stream value accepted older,
    vm.ioDevice.log = newer ++ .recalled stream value accepted :: older →
      (outstanding stream older).head? = some value
  /-- A refusal changes nothing, and the next attempt makes the same call. -/
  refused : ∀ error, vm.microStepBack.1 = .error error → error ≠ .noHistory →
    vm.microStepBack.2 = { vm with ioDevice := vm.microStepBack.2.ioDevice } ∧
      ∃ stream value, ∀ device : Logged D, ∃ accepted,
        ({ vm with ioDevice := device } : MarieVMCore (Logged D)).microStepBack.2.ioDevice.log =
          .recalled stream value accepted :: device.log
  /-- Each delivery is latched in `IN` once, and nothing else is. -/
  latched : latched = delivered vm.ioDevice.log
  others : vm.microStep.1 ≠ .executed .readInput →
    vm.microStep.2.registers.input = vm.registers.input

/-- However a machine is stepped and its journal cut, and whatever the device answers, the
promises to the device are kept. -/
theorem promises_kept {start vm : MarieVMCore (Logged D)} {latched : List Word}
    (hempty : start.history.entries = []) (hlog : start.ioDevice.log = [])
    (h : Debugged start latched vm) : Promised latched vm := by
  have hstart : KeepsPromises start := by
    refine ⟨by simp [hempty], fun stream => ?_, ?_⟩
    · rw [hempty]
      exact List.nil_prefix
    · rw [hlog]
      exact Honest.nil
  exact
    { rewinds := (h.keepsPromises hstart).honest
      refused := fun _ => microStepBack_refused
      latched := h.latched hlog
      others := microStep_input }

/-- An input that is read and given back. -/
theorem promises_kept_input :
    let start : MarieVMCore (Logged VecIo) :=
      { MarieVMCore.new ⟨VecIo.new [7], []⟩ with memory := fun _ => 0x5000, history := ⟨[], 2⟩ }
    let vm := start.microStep.2.microStep.2.microStep.2.microStep.2.microStep.2.microStep.2
    vm.microStepBack.2.ioDevice.log = [.recalled .input 7 true, .passed .input 7] ∧
      Promised [7] vm.microStepBack.2 := by
  intro start vm
  obtain ⟨latched, h⟩ : ∃ latched, Debugged start latched vm.microStepBack.2 :=
    ⟨_, .microStepBack (.microStep (.microStep (.microStep (.microStep (.microStep (.microStep
      .start))))))⟩
  have hpromised := promises_kept rfl rfl h
  have hlatched : latched = [7] := hpromised.latched.trans (by decide +kernel)
  rw [hlatched] at hpromised
  exact ⟨by decide +kernel, hpromised⟩

end MarieVMCore

end MarieRs.Vm
