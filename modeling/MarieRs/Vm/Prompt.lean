import MarieRs.Core.Literal
import MarieRs.Vm.Device

namespace MarieRs.Vm

/-- How a line of typed input becomes machine words. -/
inductive InputMode where
  | word | utf16
  deriving DecidableEq, Repr

/-- What `read_line` puts into the string it is given, which is empty only at the end of
input. -/
structure TypedLine where
  text : Str
  nonempty : text ≠ []

/-- The terminal, as what each `read_line` to come will find. -/
abbrev Stdin := List (Except String TypedLine)

/-- `char::encode_utf16` -/
def encodeUtf16 (c : Char) : List Word :=
  if c.toNat < 0x10000 then [BitVec.ofNat 16 c.toNat]
  else
    [BitVec.ofNat 16 (0xD800 + (c.toNat - 0x10000) / 0x400),
      BitVec.ofNat 16 (0xDC00 + (c.toNat - 0x10000) % 0x400)]

def stripSuffix (suffix : Char) (s : Str) : Str :=
  if s.getLast? = some suffix then s.dropLast else s

namespace InputMode

/-- Appends the words that a line yields, which may be none. -/
def decode (mode : InputMode) (line : Str) (queue : List Word) :
    Except ParseWordError (List Word) :=
  match mode with
  | .word =>
    let trimmed := trim line
    if trimmed = [] then .ok queue
    else
      match parsePrefixedWord trimmed with
      | .error error => .error error
      | .ok value => .ok (queue ++ [value])
  | .utf16 =>
    let text := stripSuffix '\r' (stripSuffix '\n' line)
    .ok (queue ++ text.flatMap encodeUtf16)

/-- The words that a line stands for: none, if it is blank or cannot be parsed. -/
def words (mode : InputMode) (line : Str) : List Word :=
  match mode.decode line [] with
  | .ok words => words
  | .error _ => []

/-- The words that all lines to come stand for. -/
def typedWords (mode : InputMode) (stdin : Stdin) : List Word :=
  stdin.flatMap fun read =>
    match read with
    | .ok line => mode.words line.text
    | .error _ => []

theorem decode_append (mode : InputMode) (line : Str) (queue : List Word) :
    (∃ error, mode.decode line queue = .error error ∧ mode.words line = []) ∨
      mode.decode line queue = .ok (queue ++ mode.words line) := by
  cases mode with
  | utf16 => exact .inr rfl
  | word =>
    simp only [decode, words]
    by_cases hblank : trim line = []
    · simp only [if_pos hblank, List.append_nil]
      exact .inr trivial
    · simp only [if_neg hblank]
      cases parsePrefixedWord (trim line) with
      | error error => exact .inl ⟨error, rfl, rfl⟩
      | ok value => exact .inr rfl

end InputMode

/-- The loop of `prompt_stdin`: asks for lines until one yields a word. -/
def promptLoop (mode : InputMode) : Stdin → List Word → Except IoError Word × List Word × Stdin
  | [], queue => (.error .eof, queue, [])
  | .error error :: stdin, queue => (.error (.io error), queue, stdin)
  | .ok line :: stdin, queue =>
    match mode.decode line.text queue with
    | .ok (value :: queue) => (.ok value, queue, stdin)
    | .ok [] => promptLoop mode stdin []
    | .error _ => promptLoop mode stdin queue

/-- Reads the next word, with what is left of the queue and of the terminal. -/
def promptStdin (mode : InputMode) (queue : List Word) (stdin : Stdin) :
    Except IoError Word × List Word × Stdin :=
  match queue with
  | value :: queue => (.ok value, queue, stdin)
  | [] => promptLoop mode stdin []

/-- The device of the command line, with the terminal it is attached to. -/
structure StdinIo where
  mode : InputMode
  pending : List Word
  stdin : Stdin
  printed : List Word

namespace StdinIo

def withMode (mode : InputMode) (stdin : Stdin) : StdinIo := ⟨mode, [], stdin, []⟩

/-- Neither direction can be rewound. -/
instance : MarieVmIODevice StdinIo where
  pollInput io :=
    let (answer, pending, stdin) := promptStdin io.mode io.pending io.stdin
    (.ready answer, { io with pending, stdin })
  output io value := (.ok (), { io with printed := io.printed ++ [value] })

end StdinIo

/-- What one prompt may do: take the first word there is, find that there is none, or fail
with the terminal. -/
inductive Prompted (mode : InputMode) (queue : List Word) (stdin : Stdin) :
    Except IoError Word × List Word × Stdin → Prop where
  | takes {value : Word} {queue' : List Word} {stdin' : Stdin}
    (h : queue ++ mode.typedWords stdin = value :: (queue' ++ mode.typedWords stdin'))
    (hrest : stdin' <:+ stdin) : Prompted mode queue stdin (.ok value, queue', stdin')
  | ends (h : queue ++ mode.typedWords stdin = []) :
    Prompted mode queue stdin (.error .eof, [], [])
  | fails {error : String} {queue' : List Word} {stdin' : Stdin}
    (h : queue ++ mode.typedWords stdin = queue' ++ mode.typedWords stdin')
    (hrest : .error error :: stdin' <:+ stdin) :
    Prompted mode queue stdin (.error (.io error), queue', stdin')

theorem promptLoop_prompted (mode : InputMode) (stdin : Stdin) :
    Prompted mode [] stdin (promptLoop mode stdin []) := by
  induction stdin with
  | nil => exact .ends rfl
  | cons read stdin ih =>
    cases read with
    | error error => exact .fails rfl List.suffix_rfl
    | ok line =>
      have htyped : mode.typedWords (.ok line :: stdin) =
          mode.words line.text ++ mode.typedWords stdin := rfl
      have hblank : mode.words line.text = [] →
          Prompted mode [] (.ok line :: stdin) (promptLoop mode stdin []) := by
        intro hnone
        have hsame : mode.typedWords (.ok line :: stdin) = mode.typedWords stdin := by
          rw [htyped, hnone, List.nil_append]
        generalize promptLoop mode stdin [] = result at ih
        cases ih with
        | takes h hrest =>
          exact .takes (by rw [hsame]; exact h) (hrest.trans (List.suffix_cons _ _))
        | ends h => exact .ends (by rw [hsame]; exact h)
        | fails h hrest =>
          exact .fails (by rw [hsame]; exact h) (hrest.trans (List.suffix_cons _ _))
      rw [promptLoop]
      rcases mode.decode_append line.text [] with ⟨error, herror, hnone⟩ | hok
      · rw [herror]
        exact hblank hnone
      · rw [hok, List.nil_append]
        cases hwords : mode.words line.text with
        | nil => exact hblank hwords
        | cons value queue =>
          refine .takes ?_ (List.suffix_cons _ _)
          rw [htyped, hwords]
          rfl

theorem promptStdin_prompted (mode : InputMode) (queue : List Word) (stdin : Stdin) :
    Prompted mode queue stdin (promptStdin mode queue stdin) := by
  cases queue with
  | nil => exact promptLoop_prompted mode stdin
  | cons value queue => exact .takes rfl List.suffix_rfl

end MarieRs.Vm
