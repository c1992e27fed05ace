import MarieRs.Cli.Sessions
import MarieRs.Lib.Timeline
import MarieRs.Vm.Flaky
import MarieRs.Vm.Promises
import MarieRs.Vm.StepBack

namespace MarieRs.Cli

open Lib.Timeline Vm
open MarieVMCore (Forward Reachable Snapshot eq_of_seen microStep_executed microStep_of_execute)

theorem pollInput_outputs (io : ReplayIo) : io.pollInput.2.outputs = io.outputs := by
  obtain ⟨mode, pending, typed, outputs, stdin⟩ := io
  cases pending <;> rfl

/-- The device rewinds as far as its outputs: its inputs come from the terminal, from which the
prompt takes lines too. -/
theorem rewinds_replayIo : Rewinds ReplayIo.outputs where
  pollStopped := fun io _ => pollInput_outputs io
  outputStopped := fun io value hstopped => absurd rfl hstopped
  unread := by
    intro io other after value hpoll hsame
    have hafter : io.pollInput.2 = after := congrArg Prod.snd hpoll
    rw [← hafter] at hsame
    exact hsame.trans (pollInput_outputs io)
  unwrite := by
    intro io other after value hout hsame
    cases hout
    have hlast : other.outputs = io.outputs ++ [value] := hsame
    simp only [MarieVmIODevice.unwriteOutput, ReplayIo.unwriteOutput, hlast,
      List.getLast?_concat, if_true, List.dropLast_concat]
  display := fun _ _ _ => rfl

theorem willing_replayIo : Willing ReplayIo.outputs where
  unread := fun _ _ _ _ _ _ => rfl
  unwrite := by
    intro io other after value hout hsame
    cases hout
    have hlast : other.outputs = io.outputs ++ [value] := hsame
    simp only [MarieVmIODevice.unwriteOutput, ReplayIo.unwriteOutput, hlast,
      List.getLast?_concat, if_true]

/-- A state of the machine, with what was put out. -/
abbrev State := Snapshot (List Word)

def state (vm : MarieVMCore ReplayIo) : State := vm.seen ReplayIo.outputs

/-- The word that an entry has to give back, if it has one. -/
def readBy (e : Entry) : List Word := (e.effect.movedOn .input).toList

theorem displayed_same (io : ReplayIo) (address : MemoryAddress) (previous current : Word) :
    MarieVMCore.displayed io address previous current = io := by
  unfold MarieVMCore.displayed
  split
  · rfl
  · split <;> rfl

/-- An operation goes the same way again, if what it read is held ready. -/
theorem execute_again {v w core : MarieVMCore ReplayIo} {op : MicroOp} {effect : Effect}
    (hlike : state v = state w) (he : v.executeMicroOp op = (.ok effect, core))
    (hheld : ∀ value, effect.movedOn .input = some value → w.ioDevice.pending.head? = some value) :
    ∃ core', w.executeMicroOp op = (.ok effect, core') ∧ state core' = state core ∧
      w.ioDevice.pending = (effect.movedOn .input).toList ++ core'.ioDevice.pending := by
  obtain ⟨hsame, hdevice⟩ := eq_of_seen hlike
  rw [hsame]
  cases op <;>
    simp only [MarieVMCore.executeMicroOp, MarieVMCore.executeMicroOp.done,
      MarieVMCore.writeRegister, MarieVMCore.writeMemory_eq, displayed_same] at he ⊢
  case readInput =>
    split at he
    · cases he
    · cases he
    · rename_i value device hpoll
      cases he
      have hhead := hheld value rfl
      obtain ⟨rest, hpending⟩ : ∃ rest, w.ioDevice.pending = value :: rest := by
        cases hheldNow : w.ioDevice.pending with
        | nil =>
          rw [hheldNow] at hhead
          cases hhead
        | cons first rest =>
          rw [hheldNow] at hhead
          cases hhead
          exact ⟨rest, rfl⟩
      have hafter : v.ioDevice.pollInput.2 = device := congrArg Prod.snd hpoll
      have houtputs : w.ioDevice.outputs = device.outputs := by
        rw [← hafter, pollInput_outputs]
        exact hdevice
      simp only [MarieVmIODevice.pollInput, ReplayIo.pollInput, hpending]
      refine ⟨_, rfl, ?_, rfl⟩
      simp only [state, MarieVMCore.seen, houtputs]
  case writeOutput =>
    cases he
    refine ⟨_, rfl, ?_, rfl⟩
    have houtputs : w.ioDevice.outputs = v.ioDevice.outputs := hdevice
    simp only [state, MarieVMCore.seen, houtputs]
  case decode | compare =>
    split at he
    · cases he
    · cases he
      exact ⟨_, rfl, by simp only [state, MarieVMCore.seen, hdevice], rfl⟩
  case skipIfComparison =>
    split at he
    · rename_i hholds
      cases he
      exact ⟨_, if_pos hholds, by simp only [state, MarieVMCore.seen, hdevice], rfl⟩
    · rename_i hholds
      cases he
      exact ⟨_, if_neg hholds, by simp only [state, MarieVMCore.seen, hdevice], rfl⟩
  case halt => cases he
  all_goals
    cases he
    exact ⟨_, rfl, by simp only [state, MarieVMCore.seen, hdevice], rfl⟩

/-- Where nothing is held ready, going forward holds nothing ready. -/
theorem microStep_pending {vm : MarieVMCore ReplayIo} (hnone : vm.ioDevice.pending = []) :
    vm.microStep.2.ioDevice.pending = [] := by
  have hdevice : vm.beginInstruction.ioDevice = vm.ioDevice := by rw [MarieVMCore.begin_frame]
  have hexecute : ∀ op, (vm.beginInstruction.executeMicroOp op).2.ioDevice.pending = [] := by
    intro op
    apply MarieVMCore.execute_device (P := fun io : ReplayIo => io.pending = [])
    · intro io hio
      change io.pollInput.2.pending = []
      unfold ReplayIo.pollInput
      rw [hio]
    · exact fun io value hio => hio
    · intro io address previous current hio
      rw [displayed_same]
      exact hio
    · rw [hdevice]
      exact hnone
  cases hop : vm.currentMicroOp with
  | none =>
    simp only [MarieVMCore.microStep, MarieVMCore.begin_currentMicroOp, hop]
    rw [hdevice]
    exact hnone
  | some op =>
    have hafter := hexecute op
    rcases he : vm.beginInstruction.executeMicroOp op with ⟨result, core⟩
    rw [he] at hafter
    cases result with
    | ok effect =>
      rw [microStep_of_execute hop he]
      exact hafter
    | error stop =>
      rw [MarieVMCore.microStep_of_error hop he]
      exact hafter

/-- What an entry remembers leads from one state to the next: forward, again if what was read is
held ready, and back, which holds it ready. -/
structure Journals (e : Entry) (s t : State) : Prop where
  forward : Forward ReplayIo.outputs e.microOp s t
  again : ∀ vm, state vm = s → ∀ rest, vm.ioDevice.pending = readBy e ++ rest →
    ∃ vm', vm.microStep = (.executed e.microOp, vm') ∧ state vm' = t ∧
      vm'.history = vm.history.record e ∧ vm'.ioDevice.pending = rest
  back : ∀ vm, state vm = t → vm.history.last = some e →
    ∃ vm', vm.microStepBack = (.ok e.microOp, vm') ∧ state vm' = s ∧
      vm'.history = vm.history.pop ∧ vm'.ioDevice.pending = readBy e ++ vm.ioDevice.pending

/-- What is given back is held ready. -/
theorem microStepBack_pending {vm vm' : MarieVMCore ReplayIo} {e : Entry} {op : MicroOp}
    (hlast : vm.history.last = some e) (h : vm.microStepBack = (.ok op, vm')) :
    vm'.ioDevice.pending = readBy e ++ vm.ioDevice.pending := by
  obtain ⟨control, op', effect⟩ := e
  simp only [MarieVMCore.microStepBack, hlast] at h
  cases effect with
  | none | register =>
    cases h
    rfl
  | memory =>
    simp only [MarieVMCore.notifyDisplay_eq, displayed_same] at h
    cases h
    rfl
  | inputRead previous value =>
    cases h
    rfl
  | outputWritten value =>
    simp only [MarieVmIODevice.unwriteOutput, ReplayIo.unwriteOutput] at h
    split at h
    · cases h
    · rename_i hunwrite
      split at hunwrite
      · cases hunwrite
        cases h
        rfl
      · cases hunwrite

/-- What is executed is journalled with what leads forward, again and back. -/
theorem microStep_journals {vm vm' : MarieVMCore ReplayIo} {op : MicroOp}
    (hs : vm.microStep = (.executed op, vm')) :
    ∃ e, vm'.history = vm.history.record e ∧ Journals e (state vm) (state vm') := by
  obtain ⟨hop, effect, core, he, rfl⟩ := microStep_executed hs
  have hhistory : core.history = vm.history := by
    rw [(MarieVMCore.execute_frame he).2.1, MarieVMCore.begin_frame]
  refine ⟨⟨vm.control, op, effect⟩, by rw [← hhistory]; rfl, ⟨vm, _, rfl, hs, rfl⟩, ?_, ?_⟩
  · intro w hw rest hpending
    have hbegin := MarieVMCore.begin_seen hw.symm
    have hdevice : w.beginInstruction.ioDevice = w.ioDevice := by rw [MarieVMCore.begin_frame]
    obtain ⟨core', he', hcore, hrest⟩ := execute_again hbegin he (by
      intro value hvalue
      rw [hdevice, hpending, readBy]
      simp only [hvalue]
      rfl)
    obtain ⟨hsame, -⟩ := eq_of_seen hw.symm
    have hcurrent : w.currentMicroOp = some op := by
      rw [hsame]
      exact hop
    have hcontrol : w.control = vm.control := by
      rw [hsame]
      rfl
    have hkept : core'.history = w.history := by
      rw [(MarieVMCore.execute_frame he').2.1, MarieVMCore.begin_frame]
    rw [hdevice, hpending] at hrest
    refine ⟨_, microStep_of_execute hcurrent he', ?_, ?_, ?_⟩
    · obtain ⟨hlike, houtputs⟩ := eq_of_seen hcore.symm
      rw [hlike]
      simp only [state, MarieVMCore.seen, MarieVMCore.advanceMicroPc, MarieVMCore.record, houtputs]
      rfl
    · change core'.history.record ⟨w.control, op, effect⟩ = _
      rw [hkept, hcontrol]
    · exact (List.append_cancel_left hrest).symm
  · intro w hw hlast
    rcases MarieVMCore.execute_leads rewinds_replayIo he w hw hlast with
      ⟨w', hback, hseen, hpop⟩ | ⟨_, _, _, _, _, _, hunwilling⟩
    · exact ⟨w', hback, hseen, hpop, microStepBack_pending hlast hback⟩
    · exact absurd willing_replayIo hunwilling

/-- What the links of a line have read, in order. -/
def readOn (links : List (State × Entry)) : List Word := links.flatMap fun link => readBy link.2

/-- The machine is at a state of the line. The journal leads back from there, and the words that the
rest of the line has read are held ready. -/
structure Stands (line : Line State Entry) (k : Nat) (vm : MarieVMCore ReplayIo) : Prop where
  here : line.states[k]? = some (state vm)
  held : vm.ioDevice.pending = readOn (line.links.drop k)
  journal : vm.history.entries <:+ (line.links.take k).map Prod.snd
  bounded : vm.history.entries.length ≤ vm.history.limit

section Stands
variable {line : Line State Entry} {k : Nat} {vm vm' : MarieVMCore ReplayIo}

theorem Stands.within (h : Stands line k vm) : k ≤ line.links.length := by
  have hlt := (List.getElem?_eq_some_iff.mp h.here).1
  rw [Line.states_length] at hlt
  omega

/-- Going forward along the line. -/
theorem Stands.again (h : Stands line k vm) (hled : line.Led Journals)
    (hlt : k < line.links.length) : ∃ op, vm.microStep.1 = .executed op ∧
      Stands line (k + 1) vm.microStep.2 := by
  obtain ⟨⟨s, e⟩, hlink⟩ : ∃ link, line.links[k]? = some link := ⟨_, List.getElem?_eq_getElem hlt⟩
  obtain ⟨t, hnext, hjournals⟩ := hled.link hlink
  have hs : state vm = s := by
    have hhere := h.here
    rw [Line.states_link hlink] at hhere
    exact (Option.some.inj hhere).symm
  have hdrop : line.links.drop k = (s, e) :: line.links.drop (k + 1) := by
    rw [List.drop_eq_getElem_cons hlt]
    rw [List.getElem?_eq_getElem hlt, Option.some.injEq] at hlink
    rw [hlink]
  have hheld := h.held
  rw [hdrop] at hheld
  obtain ⟨vm', hstep, rfl, hhistory, hrest⟩ := hjournals.again vm hs _ hheld
  rw [hstep]
  have hentries := (MarieVMCore.record_entries vm.history e).1
  refine ⟨e.microOp, rfl, hnext, hrest, ?_, ?_⟩
  · rw [hhistory, hentries, List.take_add_one, hlink, List.map_append]
    exact Lib.Journal.append_suffix h.journal h.bounded e
  · rw [hhistory]
    exact History.record_bounded h.bounded

/-- Going forward from the end of the line makes it grow. -/
theorem Stands.extend {op : MicroOp} (h : Stands line line.links.length vm)
    (hled : line.Led Journals) (hs : vm.microStep = (.executed op, vm')) :
    ∃ e, (line.extend e (state vm')).Led Journals ∧
      Stands (line.extend e (state vm')) (line.links.length + 1) vm' := by
  obtain ⟨e, hhistory, hjournals⟩ := microStep_journals hs
  have hlast : line.last = state vm := by
    have hhere := h.here
    rw [Line.states_last] at hhere
    exact Option.some.inj hhere
  have hheld := h.held
  rw [List.drop_length] at hheld
  have hpending := microStep_pending hheld
  rw [hs] at hpending
  refine ⟨e, hled.extend (by rw [hlast]; exact hjournals), ?_, ?_, ?_, ?_⟩
  · rw [Line.states_extend, ← Line.states_length, List.getElem?_concat_length]
  · rw [Line.extend, List.drop_eq_nil_of_le (by simp)]
    exact hpending
  · have hjournal := h.journal
    rw [List.take_length] at hjournal
    rw [hhistory, (MarieVMCore.record_entries vm.history e).1, Line.extend,
      List.take_of_length_le (by simp), List.map_append]
    exact Lib.Journal.append_suffix hjournal h.bounded e
  · rw [hhistory]
    exact History.record_bounded h.bounded

/-- Not going forward is staying there. -/
theorem Stands.stopped (h : Stands line line.links.length vm)
    (hstop : ∀ op, vm.microStep.1 ≠ .executed op) :
    Stands line line.links.length vm.microStep.2 := by
  obtain ⟨hseen, hhistory⟩ := MarieVMCore.microStep_stop_seen rewinds_replayIo hstop
  have hheld := h.held
  rw [List.drop_length] at hheld
  refine ⟨?_, ?_, ?_, ?_⟩
  · rw [h.here]
    exact congrArg some hseen.symm
  · rw [List.drop_length]
    exact microStep_pending hheld
  · rw [hhistory]
    exact h.journal
  · rw [hhistory]
    exact h.bounded

/-- Going back along the line, as far as the journal goes. -/
theorem Stands.back (h : Stands line k vm) (hled : line.Led Journals) :
    vm.history.entries = [] ∧ vm.microStepBack = (.error .noHistory, vm) ∨
      ∃ op vm' j, k = j + 1 ∧ vm.microStepBack = (.ok op, vm') ∧ Stands line j vm' := by
  cases hlast : vm.history.last with
  | none =>
    refine .inl ⟨List.getLast?_eq_none_iff.mp hlast, ?_⟩
    simp only [MarieVMCore.microStepBack, hlast]
  | some e =>
    refine .inr ?_
    obtain ⟨init, hentries⟩ := List.getLast?_eq_some_iff.mp hlast
    obtain ⟨front, hfront⟩ := h.journal
    -- the latest entry is the link that led here
    cases k with
    | zero =>
      rw [hentries, ← List.append_assoc, List.take_zero] at hfront
      exact absurd hfront (List.append_ne_nil_of_right_ne_nil _ (by simp))
    | succ j =>
      obtain ⟨⟨s, e'⟩, hlink⟩ : ∃ link, line.links[j]? = some link :=
        ⟨_, List.getElem?_eq_getElem h.within⟩
      rw [List.take_add_one, hlink, List.map_append, hentries, ← List.append_assoc] at hfront
      obtain ⟨hinit, hsame⟩ := List.append_inj' hfront rfl
      obtain rfl : e = e' := (List.cons.inj hsame).1
      obtain ⟨t, hnext, hjournals⟩ := hled.link hlink
      have ht : state vm = t := by
        have hhere := h.here
        rw [hnext] at hhere
        exact (Option.some.inj hhere).symm
      obtain ⟨vm', hback, hs, hpop, hheld⟩ := hjournals.back vm ht hlast
      refine ⟨e.microOp, vm', j, rfl, hback, ?_, ?_, ?_, ?_⟩
      · rw [Line.states_link hlink, hs]
      · rw [hheld, h.held, List.drop_eq_getElem_cons h.within]
        rw [List.getElem?_eq_getElem h.within, Option.some.injEq] at hlink
        rw [hlink]
        rfl
      · rw [hpop, History.pop, hentries, List.dropLast_concat]
        exact ⟨front, hinit⟩
      · have hbounded := h.bounded
        rw [hpop, History.pop, List.length_dropLast]
        simp only
        omega

end Stands

/-- The machine is somewhere on a line that has grown from this one. -/
def On (line : Line State Entry) (vm : MarieVMCore ReplayIo) : Prop :=
  ∃ line', line.Grows line' ∧ line'.Led Journals ∧ ∃ k, Stands line' k vm

theorem kept_on (line : Line State Entry) : Kept (On line) where
  microStep := by
    rintro vm ⟨line', hgrows, hled, k, hstands⟩
    rcases Nat.lt_or_eq_of_le hstands.within with hlt | rfl
    · obtain ⟨-, -, hnext⟩ := hstands.again hled hlt
      exact ⟨line', hgrows, hled, k + 1, hnext⟩
    · rcases hs : vm.microStep with ⟨out, vm'⟩
      rcases MarieVMCore.microStep_cases hs with ⟨op, -, -, rfl, -⟩ | ⟨hstop, -⟩
      · obtain ⟨e, hled', hnext⟩ := hstands.extend hled hs
        exact ⟨_, hgrows.extend e _, hled', _, hnext⟩
      · have hstopped := hstands.stopped (by rw [hs]; exact hstop)
        rw [hs] at hstopped
        exact ⟨line', hgrows, hled, _, hstopped⟩
  microStepBack := by
    rintro vm ⟨line', hgrows, hled, k, hstands⟩
    rcases hstands.back hled with ⟨-, hnone⟩ | ⟨op, vm', j, -, hback, hthere⟩
    · rw [hnone]
      exact ⟨line', hgrows, hled, k, hstands⟩
    · rw [hback]
      exact ⟨line', hgrows, hled, j, hthere⟩
  breakpoints := fun vm breakpoints ⟨line', hgrows, hled, k, hstands⟩ =>
    ⟨line', hgrows, hled, k, hstands.here, hstands.held, hstands.journal, hstands.bounded⟩
  stdin := fun vm stdin ⟨line', hgrows, hled, k, hstands⟩ =>
    ⟨line', hgrows, hled, k, hstands.here, hstands.held, hstands.journal, hstands.bounded⟩

/-- An instruction back is some way back along the line: to where an instruction begins, or to where
nothing more is journalled. -/
theorem Stands.stepBackFrom {line : Line State Entry} {k : Nat} {vm : MarieVMCore ReplayIo}
    (h : Stands line k vm) (hled : line.Led Journals) (undone : Nat) :
    ∃ j ≤ k, Stands line j (vm.stepBackFrom undone).2 ∧
      ((vm.stepBackFrom undone).1 = .ok (undone + (k - j)) ∧
          (vm.stepBackFrom undone).2.microPc = 0 ∨
        (vm.stepBackFrom undone).1 = .error .noHistory ∧
          (vm.stepBackFrom undone).2.history.entries = []) := by
  induction k generalizing vm undone with
  | zero =>
    rcases h.back hled with ⟨hempty, hnone⟩ | ⟨op, vm', j, hk, -⟩
    · rw [MarieVMCore.stepBackFrom_error hnone]
      exact ⟨0, le_rfl, h, .inr ⟨rfl, hempty⟩⟩
    · omega
  | succ k ih =>
    rcases h.back hled with ⟨hempty, hnone⟩ | ⟨op, vm', j, hk, hback, hthere⟩
    · rw [MarieVMCore.stepBackFrom_error hnone]
      exact ⟨k + 1, le_rfl, h, .inr ⟨rfl, hempty⟩⟩
    · obtain rfl : j = k := by omega
      by_cases hz : vm'.microPc = 0
      · rw [MarieVMCore.stepBackFrom_boundary hback hz]
        refine ⟨j, by omega, hthere, .inl ⟨?_, hz⟩⟩
        rw [Nat.add_sub_cancel_left]
      · rw [MarieVMCore.stepBackFrom_inner hback hz]
        obtain ⟨i, hi, hstands, hends⟩ := ih hthere (undone + 1)
        refine ⟨i, by omega, hstands, hends.imp_left fun ⟨hok, hboundary⟩ => ⟨?_, hboundary⟩⟩
        rw [hok]
        congr 1
        omega

/-- The machine is at a state of the line, and steps back lead along it. They only fail where
nothing is journalled. -/
structure OnLine (line : Line State Entry) (k : Nat) (vm : MarieVMCore ReplayIo) : Prop where
  here : line.states[k]? = some (state vm)
  backi : vm.history.entries = [] ∧ vm.microStepBack = (.error .noHistory, vm) ∨
    ∃ op vm' j, k = j + 1 ∧ vm.microStepBack = (.ok op, vm') ∧ line.states[j]? = some (state vm')
  back : ∃ j ≤ k, line.states[j]? = some (state vm.stepBack.2) ∧
    (vm.stepBack.1 = .ok (k - j) ∧ vm.stepBack.2.microPc = 0 ∨
      vm.stepBack.1 = .error .noHistory ∧ vm.stepBack.2.history.entries = [])

section OnLine
variable {line line' : Line State Entry} {k : Nat} {vm : MarieVMCore ReplayIo}

theorem Stands.onLine (h : Stands line k vm) (hled : line.Led Journals) : OnLine line k vm := by
  refine ⟨h.here, ?_, ?_⟩
  · refine (h.back hled).imp_right ?_
    rintro ⟨op, vm', j, hk, hback, hthere⟩
    exact ⟨op, vm', j, hk, hback, hthere.here⟩
  · obtain ⟨j, hj, hthere, hends⟩ := h.stepBackFrom hled 0
    rw [Nat.zero_add] at hends
    exact ⟨j, hj, hthere.here, hends⟩

/-- It stays so when the line grows. -/
theorem OnLine.grows (h : OnLine line k vm) (hgrows : line.Grows line') : OnLine line' k vm := by
  refine ⟨hgrows.state h.here, h.backi.imp_right ?_, ?_⟩
  · rintro ⟨op, vm', j, hk, hback, hthere⟩
    exact ⟨op, vm', j, hk, hback, hgrows.state hthere⟩
  · obtain ⟨j, hj, hthere, hends⟩ := h.back
    exact ⟨j, hj, hgrows.state hthere, hends⟩

theorem held_onLine {slot : Option Machine} (hled : line.Led Journals) (hgrows : line.Grows line')
    (h : Held (fun vm => ∃ k, Stands line k vm) slot) :
    Held (fun vm => ∃ k, OnLine line' k vm) slot := by
  intro machine hmachine
  obtain ⟨k, hstands⟩ := h machine hmachine
  exact ⟨k, (hstands.onLine hled).grows hgrows⟩

/-- Wherever a kept machine is, its line is. -/
theorem held_on {slot : Option Machine} (hled : line.Led Journals) (h : Held (On line) slot) :
    ∃ line', line.Grows line' ∧ line'.Led Journals ∧
      Held (fun vm => ∃ k, Stands line' k vm) slot := by
  cases slot with
  | none => exact ⟨line, .refl, hled, fun machine hmachine => by cases hmachine⟩
  | some machine =>
    obtain ⟨line', hgrows, hled', hstands⟩ := h machine rfl
    exact ⟨line', hgrows, hled', held_some hstands⟩

end OnLine

namespace Debugger

variable {context : Context}

/-- From one moment on, the line only grows. -/
theorem moments_onLine (context : Context) (slices : List Nat) {line : Line State Entry}
    {first : Debugger} (hled : line.Led Journals)
    (hfirst : Held (fun vm => ∃ k, Stands line k vm) first.machine) :
    ∃ line', line.Grows line' ∧ line'.Led Journals ∧
      ∀ now ∈ moments context slices first,
        Held (fun vm => ∃ k, OnLine line' k vm) now.machine := by
  induction slices generalizing line first with
  | nil =>
    refine ⟨line, .refl, hled, fun now hnow => ?_⟩
    rw [List.mem_singleton.mp hnow]
    exact held_onLine hled .refl hfirst
  | cons patience rest ih =>
    rw [moments]
    cases hprompt : first.prompt context patience with
    | left | panicked =>
      refine ⟨line, .refl, hled, fun now hnow => ?_⟩
      rw [List.mem_singleton.mp hnow]
      exact held_onLine hled .refl hfirst
    | goesOn printed next =>
      have hgoes : Goes context first next := ⟨patience, printed, hprompt⟩
      have hon : Held (On line) next.machine := by
        apply hgoes.holds (kept_on line)
        exact fun machine hmachine => ⟨line, .refl, hled, hfirst machine hmachine⟩
      obtain ⟨line', hgrows, hled', hnext⟩ := held_on hled hon
      obtain ⟨whole, hgrows', hwhole, hmoments⟩ := ih hled' hnext
      refine ⟨whole, hgrows.trans hgrows', hwhole, fun now hnow => ?_⟩
      rcases List.mem_cons.mp hnow with rfl | hlater
      · exact held_onLine hled (hgrows.trans hgrows') hfirst
      · exact hmoments now hlater

/-- A session does not fork. There is one line of states, each of which one operation forward makes
of the one before it, and at every moment the machine that is left is on it: stepping back, by an
operation or by an instruction, goes back along the line, and is never refused but where nothing is
journalled. -/
theorem session_one_line {program : Program} {args : Args} {stdin : Stdin} {first : Debugger}
    (hstart : start program args stdin = .ok first) (context : Context) (slices : List Nat) :
    ∃ line : Line State Entry, line.Led (fun e => Forward ReplayIo.outputs e.microOp) ∧
      (∃ machine, first.machine = some machine ∧ line.states[0]? = some (state machine.vm)) ∧
      ∀ now ∈ moments context slices first, ∀ machine, now.machine = some machine →
        ∃ k, OnLine line k machine.vm := by
  obtain ⟨vm, hfirst, -, hempty, hdevice⟩ := start_machine hstart
  have hstands : Stands ⟨[], state vm⟩ 0 vm := by
    refine ⟨rfl, ?_, ?_, ?_⟩
    · rw [hdevice]
      rfl
    · rw [hempty]
      exact List.nil_suffix
    · rw [hempty]
      exact Nat.zero_le _
  have hhere : Held (fun vm' => ∃ k, Stands ⟨[], state vm⟩ k vm') first.machine := by
    rw [hfirst]
    exact held_some ⟨0, hstands⟩
  obtain ⟨line, hgrows, hled, hmoments⟩ :=
    moments_onLine context slices (.point (state vm)) hhere
  exact ⟨line, hled.mono fun _ _ _ hjournals => hjournals.forward,
    ⟨_, hfirst, hgrows.state hstands.here⟩, hmoments⟩

/-- Reads a word and halts. -/
def readAndHalt : Program := ⟨[0x5000, 0x7000], 0, 0, false⟩

/-- As far as the word is read, one operation back, and forward again. -/
def toAndFro : Stdin :=
  operations 6 ++ [.ok ⟨"7\n".toList, by decide⟩, .ok ⟨"bi\n".toList, by decide⟩] ++ operations 1

/-- The word is asked for once and read twice. -/
theorem session_one_line_again : ∃ first,
    start readAndHalt ⟨.word, 100, []⟩ toAndFro = .ok first ∧
    ∃ now ∈ moments ⟨none, none, false⟩ (List.replicate 8 0) first, now.stdin = [] ∧
      ∃ machine, now.machine = some machine ∧
        ∃ line : Line State Entry, ∃ k, OnLine line k machine.vm := by
  have hagain : ∀ first, start readAndHalt ⟨.word, 100, []⟩ toAndFro = .ok first →
      ∃ now ∈ moments ⟨none, none, false⟩ (List.replicate 8 0) first, now.stdin = [] ∧
        ∃ machine, now.machine = some machine ∧
          ∃ line : Line State Entry, ∃ k, OnLine line k machine.vm := by
    intro first hstart
    obtain ⟨line, -, -, hmoments⟩ :=
      session_one_line hstart ⟨none, none, false⟩ (List.replicate 8 0)
    obtain ⟨now, hnow, hread, machine, hmachine⟩ :
        ∃ now ∈ moments ⟨none, none, false⟩ (List.replicate 8 0) first, now.stdin = [] ∧
          ∃ machine, now.machine = some machine := by
      cases hstart
      refine ⟨_, List.mem_of_getElem? (i := 8) rfl, ?_, ?_⟩
      · rfl
      · exact ⟨_, rfl⟩
    exact ⟨now, hnow, hread, machine, hmachine, line, hmoments now hnow machine hmachine⟩
  exact ⟨_, rfl, hagain _ rfl⟩

end Debugger

end MarieRs.Cli
