import MarieRs.Asm.Assembler
import MarieRs.Asm.Lines

namespace MarieRs.Asm

/-! The first pass with spans left out: what it makes of each line's text. -/

/-- A statement that was given an address. -/
structure Placed where
  line : Nat
  address : MemoryAddress
  statement : Statement
  deriving DecidableEq

structure Sketch where
  origin : Option MemoryAddress := none
  items : List Placed := []
  ended : Option Placed := none
  labels : Str → Option (MemoryAddress × Nat) := fun _ => none
  lineFor : MemoryAddress → Option Nat := fun _ => none
  addressFor : Nat → Option MemoryAddress := fun _ => none
  codes : List Code := []
  stopped : Bool := false

/-- Why a label is not accepted, if it is not. -/
def rejection (labels : Str → Option (MemoryAddress × Nat)) (name : Str) : Option Code :=
  if (name.head?).any isAsciiDigit then some .LABEL_STARTS_WITH_DIGIT
  else if name.any isWhitespace then some .LABEL_CONTAINS_WHITESPACE
  else if (labels name).isSome then some .DUPLICATE_LABEL
  else none

def isEnd (s : Statement) : Bool := toAsciiLowercase s.mnemonic == "end".toList

namespace Sketch

def originAddress (sk : Sketch) : MemoryAddress :=
  match sk.origin with
  | some address => address
  | none => MemoryAddress.zero

def report (sk : Sketch) (code : Code) : Sketch := { sk with codes := sk.codes ++ [code] }

def place (sk : Sketch) (p : Placed) : Sketch :=
  { sk with
    items := if isEnd p.statement then sk.items else sk.items ++ [p]
    ended := if isEnd p.statement then some p else sk.ended
    stopped := isEnd p.statement
    lineFor := Function.update sk.lineFor p.address (some p.line)
    addressFor := Function.update sk.addressFor p.line (some p.address) }

def define (sk : Sketch) (name : Str) (address : MemoryAddress) (line : Nat) : Sketch :=
  { sk with labels := Function.update sk.labels name (some (address, line)) }

def accept (sk : Sketch) (p : Placed) : Sketch :=
  match p.statement.label with
  | none => sk.place p
  | some name => (sk.define name p.address p.line).place p

/-- A statement line: room first, then the label, then the operation. -/
def stepStatement (sk : Sketch) (line : Nat) (s : Statement) : Sketch :=
  match MemoryAddress.tryNew (sk.originAddress.toNat + sk.items.length) with
  | none => { sk.report .PROGRAM_TOO_LARGE with stopped := true }
  | some address =>
    match s.label.bind (rejection sk.labels) with
    | some code => sk.report code
    | none => sk.accept ⟨line, address, s⟩

def stepForm (sk : Sketch) (line : Nat) : Shape → Sketch
  | .blank => sk
  | .origin digits =>
    if ¬ sk.items.isEmpty ∨ sk.origin.isSome then sk.report .UNEXPECTED_ORIGIN
    else
      { sk with
        origin := some (MemoryAddress.newMasked (BitVec.ofNat 16
          ((fromStrRadix (2 ^ 16 - 1) 16 digits).getD 0))) }
  | .statement s => sk.stepStatement line s
  | .malformed => sk.report .MALFORMED_LINE

def step (sk : Sketch) (line : Nat) (shape : Shape) : Sketch :=
  if sk.stopped then sk else sk.stepForm line shape

theorem step_stopped {sk : Sketch} (h : sk.stopped = true) (line : Nat) (shape : Shape) :
    sk.step line shape = sk := by
  rw [step, if_pos h]

theorem step_running {sk : Sketch} (h : sk.stopped = false) (line : Nat) (shape : Shape) :
    sk.step line shape = sk.stepForm line shape := by
  rw [step, if_neg (by simp [h])]

/-- The lines from number `line` on. -/
def run (line : Nat) : List Shape → Sketch → Sketch
  | [], sk => sk
  | shape :: rest, sk => run (line + 1) rest (sk.step line shape)

end Sketch

def sketchOf (source : Str) : Sketch :=
  Sketch.run 0 ((source.splitOn '\n').map shapeOf) {}

/-- Line `number` of the source is a statement with these ranges. -/
structure StatementAt (source text : Str) (number base : Nat) (label : Option (Nat × Nat))
    (mnemonic : Nat × Nat) (operand comment : Option (Nat × Nat)) : Prop where
  line : AtLine source text number base
  ordered : (Ranges.statement label mnemonic operand comment).Ordered text
  form : ∀ base, splitLine text base =
    (Ranges.statement label mnemonic operand comment).form text base

/-- What the tree keeps of an item is what its line says. -/
def ReadItem (source : Str) (item : Item) : Prop :=
  ∃ text base label mnemonic operand comment,
    StatementAt source text item.line base label mnemonic operand comment ∧
    item.label = label.map (fun r => ⟨slice text r, charSpan text base r⟩) ∧
    item.mnemonic = ⟨slice text mnemonic, toAsciiLowercase (slice text mnemonic),
      classify (toAsciiLowercase (slice text mnemonic)), charSpan text base mnemonic⟩ ∧
    item.operand = operand.map (fun r => ⟨slice text r, charSpan text base r⟩)

/-- What the table keeps of a label is what its line says. -/
def ReadSymbol (source : Str) (name : Str) (symbol : Symbol) : Prop :=
  ∃ text base label mnemonic operand comment,
    StatementAt source text symbol.line base (some label) mnemonic operand comment ∧
    slice text label = name ∧ symbol.name = name ∧
    symbol.definition = charSpan text base label ∧ symbol.references = []

def placedOf (item : Item) : Placed :=
  ⟨item.line, item.address,
    ⟨item.label.map Label.name, item.mnemonic.text, item.operand.map Operand.text⟩⟩

structure Refines (source : Str) (st : ParseState) (sk : Sketch) : Prop where
  origin : st.out.program.origin.map Origin.address = sk.origin
  items : st.out.program.items.map placedOf = sk.items
  ended : st.out.program.end_.map End.line = sk.ended.map Placed.line
  labels : ∀ name, (st.out.symbols.get name).map (fun s => (s.address, s.line)) = sk.labels name
  lineFor : st.out.sourceMap.lineFor = sk.lineFor
  addressFor : st.out.sourceMap.addressFor = sk.addressFor
  codes : st.diagnostics.map Diagnostic.code = sk.codes
  errors : ∀ d ∈ st.diagnostics, d.isError = true
  stopped : st.stopped = sk.stopped
  readItems : ∀ item ∈ st.out.program.items, ReadItem source item
  readSymbols : ∀ name symbol, st.out.symbols.get name = some symbol →
    ReadSymbol source name symbol

theorem Refines.originAddress {source : Str} {st : ParseState} {sk : Sketch}
    (h : Refines source st sk) : st.out.program.originAddress = sk.originAddress := by
  rw [Sketch.originAddress, ← h.origin, Program.originAddress]
  cases st.out.program.origin <;> rfl

theorem Refines.nextAddress {source : Str} {st : ParseState} {sk : Sketch}
    (h : Refines source st sk) : nextAddress st.out =
      MemoryAddress.tryNew (sk.originAddress.toNat + sk.items.length) := by
  rw [Asm.nextAddress, h.originAddress, ← h.items, List.length_map]

theorem Refines.report {source : Str} {st : ParseState} {sk : Sketch} (h : Refines source st sk)
    (d : Diagnostic) (hd : d.isError = true) :
    Refines source { st with diagnostics := st.diagnostics ++ [d] } (sk.report d.code) where
  origin := h.origin
  items := h.items
  ended := h.ended
  labels := h.labels
  lineFor := h.lineFor
  addressFor := h.addressFor
  codes := by simp [Sketch.report, h.codes]
  errors := by
    intro d' hd'
    rcases List.mem_append.mp hd' with hd' | hd'
    · exact h.errors d' hd'
    · rw [List.mem_singleton.mp hd']
      exact hd
  stopped := h.stopped
  readItems := h.readItems
  readSymbols := h.readSymbols

/-- The label check of the parser is the one on names. -/
theorem defineLabel_rejected {source : Str} {symbols : SymbolTable}
    {labels : Str → Option (MemoryAddress × Nat)} {span : Span} {code : Code}
    (address : MemoryAddress) (line : Nat)
    (hlabels : ∀ name, (symbols.get name).map (fun s => (s.address, s.line)) = labels name)
    (h : rejection labels (textOf source span) = some code) :
    ∃ d, defineLabel source symbols span address line = .error d ∧ d.code = code ∧
      d.isError = true := by
  unfold rejection at h
  unfold defineLabel
  split at h
  · rename_i hdigit
    cases h
    rw [if_pos hdigit]
    exact ⟨_, rfl, rfl, rfl⟩
  · rename_i hdigit
    rw [if_neg hdigit]
    split at h
    · rename_i hspace
      cases h
      rw [if_pos hspace]
      exact ⟨_, rfl, rfl, rfl⟩
    · rename_i hspace
      rw [if_neg hspace]
      split at h
      · rename_i hdefined
        cases h
        rw [← hlabels, Option.isSome_map, SymbolTable.get] at hdefined
        obtain ⟨existing, hexisting⟩ := Option.isSome_iff_exists.mp hdefined
        rw [SymbolTable.define, hexisting]
        exact ⟨_, rfl, rfl, rfl⟩
      · cases h

theorem defineLabel_accepted {source : Str} {symbols : SymbolTable}
    {labels : Str → Option (MemoryAddress × Nat)} {span : Span}
    (address : MemoryAddress) (line : Nat)
    (hlabels : ∀ name, (symbols.get name).map (fun s => (s.address, s.line)) = labels name)
    (h : rejection labels (textOf source span) = none) :
    ∃ table, defineLabel source symbols span address line = .ok table ∧
      ∀ other, table.get other =
        if other = textOf source span then some ⟨textOf source span, address, span, line, []⟩
        else symbols.get other := by
  unfold rejection at h
  repeat' first | split at h | cases h
  rename_i hdigit hspace hdefined
  have hnone : symbols.get (textOf source span) = none := by
    rw [← hlabels, Option.isSome_map] at hdefined
    exact Option.not_isSome_iff_eq_none.mp hdefined
  obtain ⟨table, htable⟩ : ∃ table,
      symbols.define (textOf source span) address span line = .ok table :=
    SymbolTable.define_ok.mpr hnone
  refine ⟨table, ?_, SymbolTable.get_define htable⟩
  rw [defineLabel, if_neg hdigit, if_neg hspace, htable]

theorem Refines.define {source : Str} {st : ParseState} {sk : Sketch} (h : Refines source st sk)
    {table : SymbolTable} {name : Str} {address : MemoryAddress} {span : Span}
    (htable : ∀ other, table.get other =
      if other = name then some ⟨name, address, span, st.lineNumber, []⟩
      else st.out.symbols.get other)
    (hread : ReadSymbol source name ⟨name, address, span, st.lineNumber, []⟩) :
    Refines source { st with out := { st.out with symbols := table } }
      (sk.define name address st.lineNumber) where
  origin := h.origin
  items := h.items
  ended := h.ended
  labels := by
    intro other
    simp only [Sketch.define, htable, Function.update_apply, ← h.labels]
    split <;> rfl
  lineFor := h.lineFor
  addressFor := h.addressFor
  codes := h.codes
  errors := h.errors
  stopped := h.stopped
  readItems := h.readItems
  readSymbols := by
    intro other symbol hsymbol
    rw [htable] at hsymbol
    split at hsymbol
    · rename_i heq
      cases hsymbol
      rw [heq]
      exact hread
    · exact h.readSymbols other symbol hsymbol

theorem StatementAt.textOf_mnemonic {source text : Str} {number base : Nat}
    {label : Option (Nat × Nat)} {mnemonic : Nat × Nat} {operand comment : Option (Nat × Nat)}
    (h : StatementAt source text number base label mnemonic operand comment) :
    textOf source (charSpan text base mnemonic) = slice text mnemonic :=
  h.line.textOf h.ordered.2.1

theorem Refines.place {source text : Str} {st : ParseState} {sk : Sketch}
    (h : Refines source st sk) (hrunning : st.stopped = false) {base : Nat}
    {label : Option (Nat × Nat)} {mnemonic : Nat × Nat} {operand comment : Option (Nat × Nat)}
    (hat : StatementAt source text st.lineNumber base label mnemonic operand comment)
    (address : MemoryAddress) :
    Refines source
      (parseBody source st address (label.map (charSpan text base)) (charSpan text base mnemonic)
        (operand.map (charSpan text base)) (comment.map (charSpan text base)))
      (sk.place ⟨st.lineNumber, address, statementOf text label mnemonic operand⟩) := by
  have hmnemonic := hat.textOf_mnemonic
  have hlabel : (label.map (charSpan text base)).map
      (fun span => (⟨textOf source span, span⟩ : Label)) =
        label.map (fun r => ⟨slice text r, charSpan text base r⟩) := by
    cases hl : label with
    | none => rfl
    | some r => simp [hat.line.textOf (hat.ordered.1 r hl)]
  have hoperand : (operand.map (charSpan text base)).map
      (fun span => (⟨textOf source span, span⟩ : Operand)) =
        operand.map (fun r => ⟨slice text r, charSpan text base r⟩) := by
    cases ho : operand with
    | none => rfl
    | some r => simp [hat.line.textOf (hat.ordered.2.2 r ho)]
  have hlineFor : (st.out.sourceMap.insert address st.lineNumber).lineFor =
      Function.update sk.lineFor address (some st.lineNumber) := by
    funext other
    rw [SourceMap.lineFor_insert, Function.update_apply, h.lineFor]
  have haddressFor : (st.out.sourceMap.insert address st.lineNumber).addressFor =
      Function.update sk.addressFor st.lineNumber (some address) := by
    funext other
    rw [SourceMap.addressFor_insert, Function.update_apply, h.addressFor]
  by_cases hend : toAsciiLowercase (slice text mnemonic) = "end".toList
  · have hisEnd : isEnd (statementOf text label mnemonic operand) = true := by
      simpa [isEnd, statementOf] using hend
    simp only [parseBody, hmnemonic, if_pos hend]
    exact
      { origin := h.origin
        items := by simp [Sketch.place, hisEnd, h.items]
        ended := by simp [Sketch.place, hisEnd]
        labels := h.labels
        lineFor := hlineFor
        addressFor := haddressFor
        codes := h.codes
        errors := h.errors
        stopped := by simp [Sketch.place, hisEnd]
        readItems := h.readItems
        readSymbols := h.readSymbols }
  · have hisEnd : isEnd (statementOf text label mnemonic operand) = false := by
      simpa [isEnd, statementOf] using hend
    simp only [parseBody, hmnemonic, if_neg hend, hlabel, hoperand]
    exact
      { origin := h.origin
        items := by
          simp only [Sketch.place, hisEnd]
          simp [← h.items, placedOf, statementOf, Function.comp_def]
        ended := by simp [Sketch.place, hisEnd, h.ended]
        labels := h.labels
        lineFor := hlineFor
        addressFor := haddressFor
        codes := h.codes
        errors := h.errors
        stopped := by simp [Sketch.place, hisEnd, hrunning]
        readItems := by
          intro item hitem
          rcases List.mem_append.mp hitem with hitem | hitem
          · exact h.readItems item hitem
          · rw [List.mem_singleton.mp hitem]
            exact ⟨text, base, label, mnemonic, operand, comment, hat, rfl, rfl, rfl⟩
        readSymbols := h.readSymbols }

theorem Refines.statement {source text : Str} {st : ParseState} {sk : Sketch}
    (h : Refines source st sk) (hrunning : st.stopped = false) {base : Nat}
    {label : Option (Nat × Nat)} {mnemonic : Nat × Nat} {operand comment : Option (Nat × Nat)}
    (hat : StatementAt source text st.lineNumber base label mnemonic operand comment) :
    Refines source
      (parseStatement source st (label.map (charSpan text base)) (charSpan text base mnemonic)
        (operand.map (charSpan text base)) (comment.map (charSpan text base)))
      (sk.stepStatement st.lineNumber (statementOf text label mnemonic operand)) := by
  simp only [parseStatement, Sketch.stepStatement, h.nextAddress]
  cases hroom : MemoryAddress.tryNew (sk.originAddress.toNat + sk.items.length) with
  | none =>
    exact { h.report (.error .PROGRAM_TOO_LARGE (charSpan text base mnemonic) st.lineNumber
      ("Program does not fit in the " ++ toString MEMORY_WORD_COUNT ++ "-word address space."))
      rfl with stopped := rfl }
  | some address =>
    cases label with
    | none => exact h.place hrunning hat address
    | some range =>
      have hname : textOf source (charSpan text base range) = slice text range :=
        hat.line.textOf (hat.ordered.1 range rfl)
      simp only [statementOf, Option.map_some, Option.bind_some]
      cases hrejection : rejection sk.labels (slice text range) with
      | some code =>
        obtain ⟨d, hd, hcode, hisError⟩ :=
          defineLabel_rejected address st.lineNumber h.labels (hname ▸ hrejection)
        simp only [hd, ← hcode]
        exact h.report d hisError
      | none =>
        obtain ⟨table, htable, hget⟩ :=
          defineLabel_accepted address st.lineNumber h.labels (hname ▸ hrejection)
        simp only [htable]
        rw [hname] at hget
        exact (h.define hget ⟨text, base, range, mnemonic, operand, comment, hat, rfl, rfl, rfl,
          rfl⟩).place hrunning hat address

theorem Refines.setOrigin {source : Str} {st : ParseState} {sk : Sketch}
    (h : Refines source st sk) (o : Origin) :
    Refines source
      { st with out := { st.out with program := { st.out.program with origin := some o } } }
      { sk with origin := some o.address } where
  origin := rfl
  items := h.items
  ended := h.ended
  labels := h.labels
  lineFor := h.lineFor
  addressFor := h.addressFor
  codes := h.codes
  errors := h.errors
  stopped := h.stopped
  readItems := h.readItems
  readSymbols := h.readSymbols

/-- The text after `END`, and where the loop stands, are not part of the sketch. -/
theorem Refines.congr {source : Str} {st : ParseState} {sk : Sketch} (h : Refines source st sk)
    (trailing : Option Span) (base number : Nat) :
    Refines source
      { st with
        out := { st.out with program := { st.out.program with trailing } }
        base
        lineNumber := number } sk where
  origin := h.origin
  items := h.items
  ended := h.ended
  labels := h.labels
  lineFor := h.lineFor
  addressFor := h.addressFor
  codes := h.codes
  errors := h.errors
  stopped := h.stopped
  readItems := h.readItems
  readSymbols := h.readSymbols

theorem Refines.form {source text : Str} {st : ParseState} {sk : Sketch}
    (h : Refines source st sk) (hrunning : st.stopped = false)
    (hline : AtLine source text st.lineNumber st.base) :
    Refines source (parseForm source st text) (sk.step st.lineNumber (shapeOf text)) := by
  obtain ⟨ranges, hordered, hform⟩ := splitLine_ranges text
  have hgoing : sk.stopped = false := by rw [← h.stopped, hrunning]
  rw [parseForm, hform, shapeOf_ranges hordered (hform 0), Sketch.step_running hgoing]
  cases ranges with
  | blank comment => exact h
  | malformed => exact h.report _ rfl
  | origin keyword digits comment =>
    simp only [Ranges.form, Ranges.shape, Sketch.stepForm, parseOrigin,
      hline.text_charSpan hordered.2, Option.getD_some]
    have hguard : (¬ st.out.program.items.isEmpty ∨ st.out.program.origin.isSome) ↔
        (¬ sk.items.isEmpty ∨ sk.origin.isSome) := by
      rw [← h.items, ← h.origin, List.isEmpty_map, Option.isSome_map]
    by_cases hlate : ¬ st.out.program.items.isEmpty ∨ st.out.program.origin.isSome
    · rw [if_pos hlate, if_pos (hguard.mp hlate)]
      exact h.report _ rfl
    · rw [if_neg hlate, if_neg (mt hguard.mpr hlate)]
      exact h.setOrigin _
  | statement label mnemonic operand comment =>
    exact h.statement hrunning ⟨hline, hordered, hform⟩

/-- One line of the first pass. -/
theorem Refines.step {source text : Str} {st : ParseState} {sk : Sketch}
    (h : Refines source st sk) (hline : AtLine source text st.lineNumber st.base) :
    Refines source (parseLine source st text) (sk.step st.lineNumber (shapeOf text)) := by
  rw [parseLine]
  cases hstopped : st.stopped with
  | false => exact (h.form hstopped hline).congr _ _ _
  | true =>
    rw [Sketch.step_stopped (by rw [← h.stopped, hstopped]), if_pos rfl, skipLine]
    split
    · exact h.congr _ _ _
    · exact h.congr _ _ _

theorem parseForm_place (source text : Str) (st : ParseState) :
    (parseForm source st text).base = st.base ∧
      (parseForm source st text).lineNumber = st.lineNumber := by
  simp only [parseForm, parseOrigin, parseStatement, parseBody]
  repeat' first | split | exact ⟨rfl, rfl⟩

theorem parseLine_place (source text : Str) (st : ParseState) :
    (parseLine source st text).base = st.base + utf8Len text + 1 ∧
      (parseLine source st text).lineNumber = st.lineNumber + 1 := by
  have hform := parseForm_place source text st
  simp only [parseLine, skipLine]
  repeat' first | split | exact ⟨rfl, rfl⟩
  rw [hform.1, hform.2]
  exact ⟨rfl, rfl⟩

/-- The variables of the loop after `number` lines. -/
def stateUpTo (source : Str) (number : Nat) : ParseState :=
  ((source.splitOn '\n').take number).foldl (parseLine source) {}

/-- The sketch of the first `number` lines. -/
def sketchUpTo (source : Str) (number : Nat) : Sketch :=
  Sketch.run 0 (((source.splitOn '\n').take number).map shapeOf) {}

theorem Sketch.run_append (line : Nat) (first rest : List Shape) (sk : Sketch) :
    run line (first ++ rest) sk = run (line + first.length) rest (run line first sk) := by
  induction first generalizing line sk with
  | nil => rfl
  | cons shape first ih =>
    rw [List.cons_append, run, run, ih, List.length_cons]
    congr 1
    omega

theorem stateUpTo_succ {source text : Str} {number : Nat}
    (h : (source.splitOn '\n')[number]? = some text) :
    stateUpTo source (number + 1) = parseLine source (stateUpTo source number) text := by
  rw [stateUpTo, List.take_add_one, h, List.foldl_append]
  rfl

theorem sketchUpTo_succ {source text : Str} {number : Nat}
    (h : (source.splitOn '\n')[number]? = some text) :
    sketchUpTo source (number + 1) = (sketchUpTo source number).step number (shapeOf text) := by
  have hlength : (((source.splitOn '\n').take number).map shapeOf).length = number := by
    rw [List.length_map, List.length_take]
    exact Nat.min_eq_left (List.getElem?_eq_some_iff.mp h).1.le
  rw [sketchUpTo, List.take_add_one, h, List.map_append, Sketch.run_append, hlength, Nat.zero_add]
  rfl

theorem stateUpTo_place {source : Str} {number : Nat}
    (h : number ≤ (source.splitOn '\n').length) :
    (stateUpTo source number).lineNumber = number ∧
      (stateUpTo source number).base =
        utf8Len (joined ((source.splitOn '\n').take number)) := by
  induction number with
  | zero => exact ⟨rfl, rfl⟩
  | succ number ih =>
    obtain ⟨hnumber, hbase⟩ := ih (Nat.le_of_succ_le h)
    obtain ⟨text, htext⟩ : ∃ text, (source.splitOn '\n')[number]? = some text :=
      ⟨_, List.getElem?_eq_getElem (Nat.lt_of_succ_le h)⟩
    obtain ⟨hplace, hnext⟩ := parseLine_place source text (stateUpTo source number)
    rw [stateUpTo_succ htext, hplace, hnext, hnumber, hbase, joined_take_succ htext]
    exact ⟨rfl, rfl⟩

/-- The loop knows where it is. -/
theorem stateUpTo_atLine {source text : Str} {number : Nat}
    (h : (source.splitOn '\n')[number]? = some text) :
    AtLine source text (stateUpTo source number).lineNumber (stateUpTo source number).base := by
  obtain ⟨hnumber, hbase⟩ := stateUpTo_place (List.getElem?_eq_some_iff.mp h).1.le
  rw [hnumber, hbase]
  exact ⟨h, rfl⟩

theorem Refines.start (source : Str) : Refines source {} {} where
  origin := rfl
  items := rfl
  ended := rfl
  labels := fun name => by rw [SymbolTable.get_empty]; rfl
  lineFor := by funext; simp [SourceMap.lineFor]
  addressFor := by funext; simp [SourceMap.addressFor]
  codes := rfl
  errors := by simp
  stopped := rfl
  readItems := by simp
  readSymbols := fun name symbol hsymbol => by
    rw [SymbolTable.get_empty] at hsymbol
    cases hsymbol

theorem stateUpTo_refines {source : Str} {number : Nat}
    (h : number ≤ (source.splitOn '\n').length) :
    Refines source (stateUpTo source number) (sketchUpTo source number) := by
  induction number with
  | zero => exact .start source
  | succ number ih =>
    obtain ⟨text, htext⟩ : ∃ text, (source.splitOn '\n')[number]? = some text :=
      ⟨_, List.getElem?_eq_getElem (Nat.lt_of_succ_le h)⟩
    have hstep := (ih (Nat.le_of_succ_le h)).step (stateUpTo_atLine htext)
    rw [(stateUpTo_place (Nat.le_of_succ_le h)).1] at hstep
    rw [stateUpTo_succ htext, sketchUpTo_succ htext]
    exact hstep

/-- The first pass over any source does what its sketch does. -/
theorem parse_refines (source : Str) :
    ∃ st : ParseState, parse source = (st.out, st.diagnostics) ∧
      Refines source st (sketchOf source) := by
  have hrefines := stateUpTo_refines (le_refl (source.splitOn '\n').length)
  rw [stateUpTo, sketchUpTo, List.take_length] at hrefines
  exact ⟨_, rfl, hrefines⟩

end MarieRs.Asm
