import MarieRs.Vm.Prompt

namespace MarieRs.Cli

open Vm

/-- The debugger's input device, which can be rewound. -/
structure ReplayIo where
  mode : InputMode
  pending : List Word := []
  typed : List Word := []
  outputs : List Word := []
  stdin : Stdin

namespace ReplayIo

def new (mode : InputMode) (stdin : Stdin) : ReplayIo := { mode, stdin }

def pollInput (io : ReplayIo) : Poll (Except IoError Word) × ReplayIo :=
  match io.pending with
  | value :: pending => (.ready (.ok value), { io with pending })
  | [] =>
    match promptStdin io.mode io.typed io.stdin with
    | (result, typed, stdin) => (.ready result, { io with typed, stdin })

def output (io : ReplayIo) (value : Word) : Except IoError Unit × ReplayIo :=
  (.ok (), { io with outputs := io.outputs ++ [value] })

def unreadInput (io : ReplayIo) (value : Word) : Bool × ReplayIo :=
  (true, { io with pending := value :: io.pending })

def unwriteOutput (io : ReplayIo) (value : Word) : Bool × ReplayIo :=
  if io.outputs.getLast? = some value then
    (true, { io with outputs := io.outputs.dropLast })
  else (false, io)

instance : MarieVmIODevice ReplayIo where
  pollInput := pollInput
  output := output
  unreadInput := unreadInput
  unwriteOutput := unwriteOutput

/-- The words that are still to come. -/
def ahead (io : ReplayIo) : List Word := io.pending ++ io.typed ++ io.mode.typedWords io.stdin

/-- What a poll did to the words ahead. -/
inductive Polled (io : ReplayIo) : Poll (Except IoError Word) → ReplayIo → Prop where
  | takes {value : Word} {io' : ReplayIo} (h : io.ahead = value :: io'.ahead) :
    Polled io (.ready (.ok value)) io'
  | ends {io' : ReplayIo} (h : io.ahead = []) (h' : io'.ahead = []) :
    Polled io (.ready (.error .eof)) io'
  | fails {error : String} {io' : ReplayIo} (h : io.ahead = io'.ahead)
    (herror : .error error ∈ io.stdin) : Polled io (.ready (.error (.io error))) io'

theorem pollInput_polled (io : ReplayIo) :
    Polled io io.pollInput.1 io.pollInput.2 ∧ io.pollInput.2.mode = io.mode ∧
      io.pollInput.2.stdin <:+ io.stdin := by
  obtain ⟨mode, pending, typed, outputs, stdin⟩ := io
  cases pending with
  | cons value pending => exact ⟨.takes rfl, rfl, List.suffix_rfl⟩
  | nil =>
    have hprompted := promptStdin_prompted mode typed stdin
    simp only [pollInput]
    generalize promptStdin mode typed stdin = result at hprompted
    cases hprompted with
    | takes h hrest => exact ⟨.takes h, trivial, hrest⟩
    | ends h => exact ⟨.ends h rfl, trivial, List.nil_suffix⟩
    | fails h hrest =>
      exact ⟨.fails h (hrest.subset List.mem_cons_self), trivial,
        (List.suffix_cons _ _).trans hrest⟩

end ReplayIo

/-- The value that a poll delivered, if it did. -/
def deliveredBy : Poll (Except IoError Word) → List Word
  | .ready (.ok value) => [value]
  | _ => []

/-- Calls on a device, where the latest value delivered is the first to be given back. The
list holds what was delivered and has not been given back. -/
inductive Replays (start : ReplayIo) : List Word → ReplayIo → Prop where
  | start : Replays start [] start
  | poll {taken : List Word} {io : ReplayIo} (h : Replays start taken io) :
    Replays start (taken ++ deliveredBy io.pollInput.1) io.pollInput.2
  | unread {taken : List Word} {value : Word} {io : ReplayIo}
    (h : Replays start (taken ++ [value]) io) : Replays start taken (io.unreadInput value).2
  | output {taken : List Word} {io : ReplayIo} (value : Word) (h : Replays start taken io) :
    Replays start taken (io.output value).2
  | unwrite {taken : List Word} {io : ReplayIo} (value : Word) (h : Replays start taken io) :
    Replays start taken (io.unwriteOutput value).2

/-- The values taken and the words ahead always are the words typed. -/
theorem Replays.split {mode : InputMode} {stdin : Stdin} {taken : List Word} {io : ReplayIo}
    (h : Replays (.new mode stdin) taken io) :
    mode.typedWords stdin = taken ++ io.ahead ∧ io.mode = mode ∧ io.stdin <:+ stdin := by
  induction h with
  | start => exact ⟨rfl, rfl, List.suffix_rfl⟩
  | @poll taken io h ih =>
    obtain ⟨hsplit, hmode, hstdin⟩ := ih
    obtain ⟨hpolled, hsame, hrest⟩ := io.pollInput_polled
    refine ⟨?_, hsame.trans hmode, hrest.trans hstdin⟩
    rw [hsplit, List.append_assoc]
    congr 1
    generalize io.pollInput.1 = result at hpolled
    generalize io.pollInput.2 = io' at hpolled
    cases hpolled with
    | takes h => exact h
    | ends h h' => rw [h, h']; rfl
    | fails h herror => exact h
  | @unread taken value io h ih =>
    obtain ⟨hsplit, hrest⟩ := ih
    refine ⟨?_, hrest⟩
    rw [hsplit, List.append_assoc]
    rfl
  | output value h ih => exact ih
  | @unwrite taken io value h ih =>
    rw [ReplayIo.unwriteOutput]
    split <;> exact ih

/-- The device reads one stream: a poll delivers the word at the cursor, which stands after
the values taken, and reports the end of input only there. -/
theorem replay_streams {mode : InputMode} {stdin : Stdin} {taken : List Word} {io : ReplayIo}
    (h : Replays (.new mode stdin) taken io) :
    taken = (mode.typedWords stdin).take taken.length ∧
    (∀ value, io.pollInput.1 = .ready (.ok value) →
      (mode.typedWords stdin)[taken.length]? = some value) ∧
    (io.pollInput.1 = .ready (.error .eof) → taken.length = (mode.typedWords stdin).length) ∧
    (∀ value, (mode.typedWords stdin)[taken.length]? = some value →
      io.pollInput.1 = .ready (.ok value) ∨
        ∃ error, io.pollInput.1 = .ready (.error (.io error)) ∧ .error error ∈ stdin) ∧
    ∀ value, (io.unreadInput value).1 = true := by
  obtain ⟨hsplit, -, hstdin⟩ := h.split
  have hpolled := io.pollInput_polled.1
  have hcursor : (mode.typedWords stdin)[taken.length]? = io.ahead.head? := by
    rw [hsplit, List.getElem?_append_right le_rfl, Nat.sub_self, List.head?_eq_getElem?]
  refine ⟨?_, ?_, ?_, ?_, fun _ => rfl⟩
  · rw [hsplit, List.take_left]
  · intro value hvalue
    rw [hcursor]
    rw [hvalue] at hpolled
    cases hpolled with
    | takes h => rw [h, List.head?_cons]
  · intro hend
    rw [hend] at hpolled
    cases hpolled with
    | ends h => rw [hsplit, h, List.append_nil]
  · intro value hvalue
    rw [hcursor] at hvalue
    generalize io.pollInput.1 = result at hpolled
    cases hpolled with
    | takes h =>
      rw [h, List.head?_cons, Option.some.injEq] at hvalue
      rw [hvalue]
      exact .inl rfl
    | ends h =>
      rw [h] at hvalue
      cases hvalue
    | fails h herror => exact .inr ⟨_, rfl, hstdin.subset herror⟩

/-- A blank line, then a string of which two units are read and one is given back. -/
theorem replay_streams_utf16 : ∃ io,
    Replays (.new .utf16 [.ok ⟨"\n".toList, by decide⟩, .ok ⟨"hi\n".toList, by decide⟩]) [0x68] io ∧
      ∀ value, io.pollInput.1 = .ready (.ok value) → ([0x68, 0x69] : List Word)[1]? = some value := by
  have htwice : Replays (.new .utf16 [.ok ⟨"\n".toList, by decide⟩,
      .ok ⟨"hi\n".toList, by decide⟩]) ([0x68] ++ [0x69]) _ := .poll (.poll .start)
  exact ⟨_, htwice.unread, (replay_streams htwice.unread).2.1⟩

end MarieRs.Cli
