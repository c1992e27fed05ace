import MarieRs.Asm.Grammar
import MarieRs.Asm.Room

namespace MarieRs.Asm

/-- The first lines of two sources are the same. -/
def SameUpTo (number : Nat) (source source' : Str) : Prop :=
  (source.splitOn '\n').take number = (source'.splitOn '\n').take number

/-- The line of the `END` that stopped parsing. -/
def StopsAt (source : Str) (number : Nat) : Prop :=
  (parse source).1.program.end_.map End.line = some number

theorem SameUpTo.mono {source source' : Str} {number fewer : Nat}
    (h : SameUpTo number source source') (hle : fewer ≤ number) :
    SameUpTo fewer source source' := by
  have htake := congrArg (List.take fewer) h
  rw [List.take_take, List.take_take, Nat.min_eq_left hle] at htake
  exact htake

theorem SameUpTo.line {source source' : Str} {number : Nat}
    (h : SameUpTo (number + 1) source source') :
    (source'.splitOn '\n')[number]? = (source.splitOn '\n')[number]? := by
  have hget := congrArg (fun lines => lines[number]?) h
  simp only [List.getElem?_take_of_lt (Nat.lt_succ_self number)] at hget
  exact hget.symm

theorem parseStatement_congr {source source' : Str} (st : ParseState) {label : Option Span}
    {mnemonic : Span} {operand : Option Span} (comment : Option Span)
    (hlabel : ∀ span ∈ label, textOf source span = textOf source' span)
    (hmnemonic : textOf source mnemonic = textOf source' mnemonic)
    (hoperand : ∀ span ∈ operand, textOf source span = textOf source' span) :
    parseStatement source st label mnemonic operand comment =
      parseStatement source' st label mnemonic operand comment := by
  have hlabels : label.map (fun span => (⟨textOf source span, span⟩ : Label)) =
      label.map fun span => ⟨textOf source' span, span⟩ := by
    apply Option.map_congr
    intro span hspan
    rw [hlabel span hspan]
  have hoperands : operand.map (fun span => (⟨textOf source span, span⟩ : Operand)) =
      operand.map fun span => ⟨textOf source' span, span⟩ := by
    apply Option.map_congr
    intro span hspan
    rw [hoperand span hspan]
  have hbody : ∀ st address, parseBody source st address label mnemonic operand comment =
      parseBody source' st address label mnemonic operand comment := by
    intro st address
    simp only [parseBody, hmnemonic, hlabels, hoperands]
  simp only [parseStatement, hbody]
  cases label with
  | none => rfl
  | some span => simp only [defineLabel, hlabel span rfl]

theorem parseForm_congr {source source' text : Str} {st : ParseState}
    (h : AtLine source text st.lineNumber st.base)
    (h' : AtLine source' text st.lineNumber st.base) :
    parseForm source st text = parseForm source' st text := by
  obtain ⟨ranges, hordered, hform⟩ := splitLine_ranges text
  have hsame : ∀ range, Within text range →
      textOf source (charSpan text st.base range) =
        textOf source' (charSpan text st.base range) := by
    intro range hrange
    rw [h.textOf hrange, h'.textOf hrange]
  rw [parseForm, parseForm, hform]
  cases ranges with
  | blank comment => rfl
  | malformed => rfl
  | origin keyword digits comment =>
    simp only [Ranges.form, parseOrigin, h.text_charSpan hordered.2, h'.text_charSpan hordered.2]
  | statement label mnemonic operand comment =>
    obtain ⟨hlabel, hmnemonic, hoperand⟩ := hordered
    refine parseStatement_congr st _ ?_ (hsame _ hmnemonic) ?_
    · intro span hspan
      obtain ⟨range, hrange, rfl⟩ := Option.map_eq_some_iff.mp hspan
      exact hsame range (hlabel range hrange)
    · intro span hspan
      obtain ⟨range, hrange, rfl⟩ := Option.map_eq_some_iff.mp hspan
      exact hsame range (hoperand range hrange)

theorem parseLine_congr {source source' text : Str} {st : ParseState}
    (hrunning : st.stopped = false) (h : AtLine source text st.lineNumber st.base)
    (h' : AtLine source' text st.lineNumber st.base) :
    parseLine source st text = parseLine source' st text := by
  simp only [parseLine, hrunning, Bool.false_eq_true, if_false, parseForm_congr h h']

/-- Two states of the loop differ in nothing that the second pass sees. -/
structure SameParse (st st' : ParseState) : Prop where
  origin : st.out.program.origin = st'.out.program.origin
  items : st.out.program.items = st'.out.program.items
  symbols : st.out.symbols = st'.out.symbols
  sourceMap : st.out.sourceMap = st'.out.sourceMap
  diagnostics : st.diagnostics = st'.diagnostics

theorem SameParse.symm {st st' : ParseState} (h : SameParse st st') : SameParse st' st where
  origin := h.origin.symm
  items := h.items.symm
  symbols := h.symbols.symm
  sourceMap := h.sourceMap.symm
  diagnostics := h.diagnostics.symm

theorem SameParse.trans {st st' st'' : ParseState} (h : SameParse st st')
    (h' : SameParse st' st'') : SameParse st st'' where
  origin := h.origin.trans h'.origin
  items := h.items.trans h'.items
  symbols := h.symbols.trans h'.symbols
  sourceMap := h.sourceMap.trans h'.sourceMap
  diagnostics := h.diagnostics.trans h'.diagnostics

theorem parseLine_stopped {st : ParseState} (h : st.stopped = true) (source text : Str) :
    (parseLine source st text).stopped = true ∧ SameParse (parseLine source st text) st := by
  rw [parseLine, if_pos h, skipLine]
  split
  · exact ⟨h, rfl, rfl, rfl, rfl, rfl⟩
  · exact ⟨h, rfl, rfl, rfl, rfl, rfl⟩

theorem foldl_stopped {st : ParseState} (h : st.stopped = true) (source : Str)
    (rest : List Str) : SameParse (rest.foldl (parseLine source) st) st := by
  induction rest generalizing st with
  | nil => exact ⟨rfl, rfl, rfl, rfl, rfl⟩
  | cons text rest ih =>
    obtain ⟨hstopped, hsame⟩ := parseLine_stopped h source text
    exact (ih hstopped).trans hsame

theorem stateUpTo_running {source : Str} {number fewer : Nat}
    (hle : fewer ≤ number) (hlength : number ≤ (source.splitOn '\n').length)
    (h : (stateUpTo source number).stopped = false) :
    (stateUpTo source fewer).stopped = false := by
  induction number with
  | zero =>
    rw [Nat.le_zero.mp hle]
    exact h
  | succ number ih =>
    rcases Nat.eq_or_lt_of_le hle with rfl | hlt
    · exact h
    · apply ih (Nat.le_of_lt_succ hlt) (Nat.le_of_succ_le hlength)
      obtain ⟨text, htext⟩ : ∃ text, (source.splitOn '\n')[number]? = some text :=
        ⟨_, List.getElem?_eq_getElem (Nat.lt_of_succ_le hlength)⟩
      cases hstopped : (stateUpTo source number).stopped with
      | false => rfl
      | true =>
        rw [stateUpTo_succ htext, (parseLine_stopped hstopped source text).1] at h
        cases h

/-- While the loop runs, it knows no more than the lines so far. -/
theorem stateUpTo_congr {source source' : Str} {number : Nat}
    (hlength : number ≤ (source.splitOn '\n').length) (hsame : SameUpTo number source source')
    (hrunning : ∀ k < number, (stateUpTo source k).stopped = false) :
    stateUpTo source number = stateUpTo source' number := by
  induction number with
  | zero => rfl
  | succ number ih =>
    obtain ⟨text, htext⟩ : ∃ text, (source.splitOn '\n')[number]? = some text :=
      ⟨_, List.getElem?_eq_getElem (Nat.lt_of_succ_le hlength)⟩
    have htext' := hsame.line.trans htext
    have hstate := ih (Nat.le_of_succ_le hlength) (hsame.mono (Nat.le_succ _))
      fun k hk => hrunning k (Nat.lt_succ_of_lt hk)
    have hline' := stateUpTo_atLine htext'
    rw [← hstate] at hline'
    rw [stateUpTo_succ htext, stateUpTo_succ htext', ← hstate]
    exact parseLine_congr (hrunning number (Nat.lt_succ_self _)) (stateUpTo_atLine htext) hline'

namespace Sketch

/-- A line that puts an `END` on record stops the sketch, and is the line on record. -/
theorem step_ended {sk : Sketch} (h : sk.ended = none) (line : Nat) (shape : Shape) :
    ((sk.step line shape).stopped = false → (sk.step line shape).ended = none) ∧
      ∀ p, (sk.step line shape).ended = some p → p.line = line := by
  have hmoves := sk.step_moves line shape
  generalize sk.step line shape = sk' at hmoves ⊢
  cases hmoves with
  | stays => exact ⟨fun _ => h, fun p hp => by rw [h] at hp; cases hp⟩
  | origin => exact ⟨fun _ => h, fun p hp => by rw [h] at hp; cases hp⟩
  | accepts s address =>
    refine ⟨accept_running h _, fun p hp => ?_⟩
    rw [accept_ended, h] at hp
    split at hp
    · cases hp
      rfl
    · cases hp

/-- An `END` on record is where the sketch stopped. -/
theorem run_ended {sk : Sketch} (hrunning : sk.stopped = false) (hnone : sk.ended = none)
    {line : Nat} {rest : List Shape} {p : Placed} (h : (run line rest sk).ended = some p) :
    ∃ k < rest.length, p.line = line + k ∧ (run line (rest.take k) sk).stopped = false ∧
      (run line (rest.take (k + 1)) sk).stopped = true := by
  induction rest generalizing sk line with
  | nil =>
    rw [run, hnone] at h
    cases h
  | cons shape rest ih =>
    obtain ⟨hended, hline⟩ := step_ended hnone line shape
    rw [run] at h
    cases hstopped : (sk.step line shape).stopped with
    | true =>
      rw [run_stopped hstopped] at h
      exact ⟨0, Nat.succ_pos _, hline p h, hrunning, hstopped⟩
    | false =>
      obtain ⟨k, hk, hp, hbefore, hafter⟩ := ih hstopped (hended hstopped) h
      refine ⟨k + 1, Nat.succ_lt_succ hk, ?_, hbefore, hafter⟩
      rw [hp]
      omega

end Sketch

theorem StopsAt.stopped {source : Str} {number : Nat} (h : StopsAt source number) :
    number < (source.splitOn '\n').length ∧ (stateUpTo source number).stopped = false ∧
      (stateUpTo source (number + 1)).stopped = true := by
  obtain ⟨st, hparse, hrefines⟩ := parse_refines source
  rw [StopsAt, hparse, hrefines.ended] at h
  obtain ⟨p, hp, rfl⟩ := Option.map_eq_some_iff.mp h
  obtain ⟨k, hk, hline, hbefore, hafter⟩ := Sketch.run_ended rfl rfl hp
  rw [List.length_map] at hk
  rw [hline, Nat.zero_add]
  rw [← List.map_take] at hbefore hafter
  refine ⟨hk, ?_, ?_⟩
  · rw [(stateUpTo_refines hk.le).stopped]
    exact hbefore
  · rw [(stateUpTo_refines (Nat.succ_le_of_lt hk)).stopped]
    exact hafter

theorem parse_stopped {source : Str} {number : Nat}
    (h : (stateUpTo source number).stopped = true) :
    ∃ st, parse source = (st.out, st.diagnostics) ∧ SameParse st (stateUpTo source number) := by
  refine ⟨((source.splitOn '\n').drop number).foldl (parseLine source)
    (stateUpTo source number), ?_, foldl_stopped h source _⟩
  rw [stateUpTo, ← List.foldl_append, List.take_append_drop]
  rfl

/-- Nothing that an assembly is used for tells two of them apart. -/
structure Alike (a a' : Assembly) : Prop where
  origin : a.origin = a'.origin
  words : a.words = a'.words
  symbols : a.symbols = a'.symbols
  sourceMap : a.sourceMap = a'.sourceMap
  diagnostics : a.diagnostics = a'.diagnostics

theorem SameParse.assemble {source source' : Str} {st st' : ParseState}
    (h : SameParse st st') (hparse : parse source = (st.out, st.diagnostics))
    (hparse' : parse source' = (st'.out, st'.diagnostics)) :
    Alike (assemble source) (assemble source') := by
  obtain ⟨horigin, hitems, hsymbols, hmap, hdiagnostics⟩ := h
  refine ⟨?_, ?_, ?_, ?_, ?_⟩ <;>
    simp only [Asm.assemble, hparse, hparse', Program.originAddress, horigin, hitems, hsymbols,
      hmap, hdiagnostics]

/-- What follows the `END` that stops the parser changes nothing. -/
theorem alike_upTo_end {source source' : Str} {number : Nat} (h : StopsAt source number)
    (hsame : SameUpTo (number + 1) source source') :
    Alike (assemble source) (assemble source') := by
  obtain ⟨hlt, hrunning, hstopped⟩ := h.stopped
  have hstate : stateUpTo source (number + 1) = stateUpTo source' (number + 1) :=
    stateUpTo_congr hlt hsame fun k hk =>
      stateUpTo_running (Nat.le_of_lt_succ hk) hlt.le hrunning
  obtain ⟨st, hparse, hst⟩ := parse_stopped hstopped
  rw [hstate] at hst hstopped
  obtain ⟨st', hparse', hst'⟩ := parse_stopped hstopped
  exact (hst.trans hst'.symm).assemble hparse hparse'

/-- A line with nothing on it, or a comment. -/
def IsBlank (text : Str) : Prop := ∀ c, (trimStart text).head? = some c → c = '/'

/-- The faults for which a line is skipped. -/
def skipping : List Code :=
  [.MALFORMED_LINE, .UNEXPECTED_ORIGIN, .LABEL_STARTS_WITH_DIGIT, .LABEL_CONTAINS_WHITESPACE,
    .DUPLICATE_LABEL]

/-- The line is blank, or the first pass says why it skips it. -/
def Skipped (source : Str) (number : Nat) : Prop :=
  (∃ text, (source.splitOn '\n')[number]? = some text ∧ IsBlank text) ∨
    ∃ d ∈ (parse source).2, d.line = number ∧ d.code ∈ skipping

def deleteLine (source : Str) (number : Nat) : Str :=
  List.intercalate ['\n'] ((source.splitOn '\n').eraseIdx number)

theorem IsBlank.shape {text : Str} (h : IsBlank text) : shapeOf text = .blank := by
  obtain ⟨form, hform⟩ : ∃ form, (Cursor.new text 0).blank = some form := by
    apply Option.ne_none_iff_exists'.mp
    intro hnone
    obtain ⟨c, hhead, hc⟩ := (Cursor.blank_none text 0).mp hnone
    exact hc (h c hhead)
  have hblank : ∃ comment, form = .blank comment := by
    rw [Cursor.blank_eq] at hform
    obtain ⟨comment, -, rfl⟩ := Option.map_eq_some_iff.mp hform
    exact ⟨comment, rfl⟩
  obtain ⟨comment, rfl⟩ := hblank
  rw [shapeOf, splitLine, hform]

theorem defineLabel_line {source : Str} {symbols : SymbolTable} {span : Span}
    {address : MemoryAddress} {line : Nat} {d : Diagnostic}
    (h : defineLabel source symbols span address line = .error d) : d.line = line := by
  simp only [defineLabel] at h
  repeat' first | split at h | cases h
  all_goals rfl

/-- What a line is reported for is reported at that line. -/
theorem parseForm_reports (source text : Str) (st : ParseState) :
    ∃ new, (parseForm source st text).diagnostics = st.diagnostics ++ new ∧
      ∀ d ∈ new, d.line = st.lineNumber := by
  have hnone : ∃ new, st.diagnostics = st.diagnostics ++ new ∧ ∀ d ∈ new, d.line = st.lineNumber :=
    ⟨[], by simp, by simp⟩
  have hone : ∀ d : Diagnostic, d.line = st.lineNumber → ∃ new,
      st.diagnostics ++ [d] = st.diagnostics ++ new ∧ ∀ d ∈ new, d.line = st.lineNumber := by
    intro d hd
    refine ⟨[d], rfl, fun d' hd' => ?_⟩
    rw [List.mem_singleton.mp hd']
    exact hd
  unfold parseForm
  split
  · exact hnone
  · unfold parseOrigin
    split
    · exact hone _ rfl
    · exact hnone
  · have hbody : ∀ st' address label mnemonic operand comment,
        (parseBody source st' address label mnemonic operand comment).diagnostics =
          st'.diagnostics := by
      intro st' address label mnemonic operand comment
      simp only [parseBody, apply_ite ParseState.diagnostics, ite_self]
    unfold parseStatement
    split
    · exact hone _ rfl
    · split
      · rw [hbody]
        exact hnone
      · split
        · rename_i hdefine
          exact hone _ (defineLabel_line hdefine)
        · rw [hbody]
          exact hnone
  · exact hone _ rfl

theorem parseLine_reports (source text : Str) (st : ParseState) :
    ∃ new, (parseLine source st text).diagnostics = st.diagnostics ++ new ∧
      ∀ d ∈ new, d.line = st.lineNumber := by
  cases hstopped : st.stopped with
  | true =>
    have hsame := (parseLine_stopped hstopped source text).2
    exact ⟨[], by rw [hsame.diagnostics, List.append_nil], by simp⟩
  | false =>
    simp only [parseLine, hstopped, Bool.false_eq_true, if_false]
    exact parseForm_reports source text st

/-- What the loop reports later, it reports at a later line. -/
theorem foldl_reports (source : Str) (rest : List Str) (st : ParseState) :
    ∃ new, (rest.foldl (parseLine source) st).diagnostics = st.diagnostics ++ new ∧
      ∀ d ∈ new, st.lineNumber ≤ d.line ∧ d.line < st.lineNumber + rest.length := by
  induction rest generalizing st with
  | nil => exact ⟨[], by simp, by simp⟩
  | cons text rest ih =>
    obtain ⟨first, hfirst, hline⟩ := parseLine_reports source text st
    obtain ⟨later, hlater, hlines⟩ := ih (parseLine source st text)
    rw [(parseLine_place source text st).2] at hlines
    refine ⟨first ++ later, ?_, fun d hd => ?_⟩
    · rw [List.foldl_cons, hlater, hfirst, List.append_assoc]
    · rw [List.length_cons]
      rcases List.mem_append.mp hd with hd | hd
      · have := hline d hd
        omega
      · have := hlines d hd
        omega

/-- A diagnostic at a line comes from that line. -/
theorem reported_at {source : Str} {d : Diagnostic} (hd : d ∈ (parse source).2) :
    ∃ text new, (source.splitOn '\n')[d.line]? = some text ∧
      (stateUpTo source (d.line + 1)).diagnostics =
        (stateUpTo source d.line).diagnostics ++ new ∧ d ∈ new := by
  obtain ⟨all, hall, halls⟩ := foldl_reports source (source.splitOn '\n') {}
  have hlt : d.line < (source.splitOn '\n').length := by
    have hmem : d ∈ all := by
      have hparse : (parse source).2 = all := hall
      rw [← hparse]
      exact hd
    have hbound := (halls d hmem).2
    have hzero : ({} : ParseState).lineNumber = 0 := rfl
    omega
  obtain ⟨text, htext⟩ : ∃ text, (source.splitOn '\n')[d.line]? = some text :=
    ⟨_, List.getElem?_eq_getElem hlt⟩
  have hparse : (parse source).2 = (((source.splitOn '\n').drop (d.line + 1)).foldl
      (parseLine source) (stateUpTo source (d.line + 1))).diagnostics := by
    rw [stateUpTo, ← List.foldl_append, List.take_append_drop]
    rfl
  obtain ⟨before, hbefore, hbefores⟩ := foldl_reports source ((source.splitOn '\n').take d.line) {}
  obtain ⟨new, hnew, -⟩ := parseLine_reports source text (stateUpTo source d.line)
  obtain ⟨after, hafter, hafters⟩ := foldl_reports source
    ((source.splitOn '\n').drop (d.line + 1)) (stateUpTo source (d.line + 1))
  rw [← stateUpTo_succ htext] at hnew
  rw [hparse, hafter, hnew] at hd
  refine ⟨text, new, htext, hnew, ?_⟩
  rcases List.mem_append.mp hd with hd | hd
  · rcases List.mem_append.mp hd with hd | hd
    · -- the lines before are too early
      have hearly : d ∈ before := by
        have heq : (stateUpTo source d.line).diagnostics = before := hbefore
        rw [← heq]
        exact hd
      have hbound := (hbefores d hearly).2
      have hzero : ({} : ParseState).lineNumber = 0 := rfl
      rw [hzero, List.length_take] at hbound
      omega
    · exact hd
  · -- and those after it too late
    have hbound := (hafters d hd).1
    rw [(stateUpTo_place (Nat.succ_le_of_lt hlt)).1] at hbound
    omega

namespace Sketch

theorem step_codes (sk : Sketch) (line : Nat) (shape : Shape) :
    (sk.step line shape).codes = sk.codes ∨ (∃ code, sk.step line shape = sk.report code) ∨
      (sk.step line shape).codes = sk.codes ++ [.PROGRAM_TOO_LARGE] := by
  cases hstopped : sk.stopped with
  | true => exact .inl (by rw [step_stopped hstopped])
  | false =>
    rw [step_running hstopped]
    cases shape with
    | blank => exact .inl rfl
    | malformed => exact .inr (.inl ⟨_, rfl⟩)
    | origin digits =>
      simp only [stepForm]
      split
      · exact .inr (.inl ⟨_, rfl⟩)
      · exact .inl rfl
    | statement s =>
      simp only [stepForm, stepStatement]
      split
      · exact .inr (.inr rfl)
      · split
        · exact .inr (.inl ⟨_, rfl⟩)
        · exact .inl (accept_codes _ _)

/-- Two sketches mean the same program, whatever its lines are numbered and whatever was
found wrong with them. -/
structure Agree (sk sk' : Sketch) : Prop where
  origin : sk.origin = sk'.origin
  statements : sk.items.map Placed.statement = sk'.items.map Placed.statement
  labels : sk.addressOf = sk'.addressOf
  stopped : sk.stopped = sk'.stopped

theorem Agree.report {sk sk' : Sketch} (h : Agree sk sk') (code code' : Code) :
    Agree (sk.report code) (sk'.report code') :=
  ⟨h.origin, h.statements, h.labels, h.stopped⟩

theorem Agree.next {sk sk' : Sketch} (h : Agree sk sk') :
    sk.originAddress.toNat + sk.items.length = sk'.originAddress.toNat + sk'.items.length := by
  have hlength := congrArg List.length h.statements
  rw [List.length_map, List.length_map] at hlength
  rw [originAddress, originAddress, h.origin, hlength]

theorem Agree.rejection {sk sk' : Sketch} (h : Agree sk sk') (name : Str) :
    rejection sk.labels name = rejection sk'.labels name := by
  have hname := congrArg Option.isSome (congrFun h.labels name)
  rw [addressOf, addressOf, Option.isSome_map, Option.isSome_map] at hname
  simp only [Asm.rejection, hname]

theorem accept_addressOf (sk : Sketch) (p : Placed) (name : Str) :
    (sk.accept p).addressOf name =
      if p.statement.label = some name then some p.address else sk.addressOf name := by
  rw [addressOf, accept_labels]
  split
  · rfl
  · rfl

theorem Agree.accept {sk sk' : Sketch} (h : Agree sk sk') (line line' : Nat)
    (address : MemoryAddress) (s : Statement) :
    Agree (sk.accept ⟨line, address, s⟩) (sk'.accept ⟨line', address, s⟩) where
  origin := by
    have horigin := h.origin
    unfold Sketch.accept
    cases s.label <;> exact horigin
  statements := by
    rw [accept_items, accept_items]
    cases isEnd s with
    | true => exact h.statements
    | false => simp [h.statements]
  labels := by
    funext name
    rw [accept_addressOf, accept_addressOf, h.labels]
  stopped := by rw [accept_stopped, accept_stopped]

theorem Agree.step {sk sk' : Sketch} (h : Agree sk sk') (line line' : Nat) (shape : Shape) :
    Agree (sk.step line shape) (sk'.step line' shape) := by
  cases hstopped : sk.stopped with
  | true =>
    rw [step_stopped hstopped, step_stopped (h.stopped ▸ hstopped)]
    exact h
  | false =>
    rw [step_running hstopped, step_running (h.stopped ▸ hstopped)]
    cases shape with
    | blank => exact h
    | malformed => exact h.report _ _
    | origin digits =>
      have hempty : sk.items.isEmpty = sk'.items.isEmpty := by
        rw [← List.isEmpty_map, h.statements, List.isEmpty_map]
      simp only [stepForm, hempty, h.origin]
      split
      · exact h.report _ _
      · exact ⟨rfl, h.statements, h.labels, h.stopped⟩
    | statement s =>
      have hrejection : s.label.bind (Asm.rejection sk.labels) =
          s.label.bind (Asm.rejection sk'.labels) := by
        congr 1
        funext name
        exact h.rejection name
      simp only [stepForm, stepStatement, h.next, hrejection]
      split
      · exact ⟨h.origin, h.statements, h.labels, rfl⟩
      · split
        · exact h.report _ _
        · exact h.accept _ _ _ _

theorem Agree.run {sk sk' : Sketch} (h : Agree sk sk') (line line' : Nat) (rest : List Shape) :
    Agree (Sketch.run line rest sk) (Sketch.run line' rest sk') := by
  induction rest generalizing sk sk' line line' with
  | nil => exact h
  | cons shape rest ih => exact ih (h.step line line' shape) _ _

end Sketch

/-- A skipped line leaves nothing behind but what is said about it. -/
theorem Skipped.step {source : Str} {number : Nat} (h : Skipped source number) :
    ∃ text, (source.splitOn '\n')[number]? = some text ∧
      Sketch.Agree ((sketchUpTo source number).step number (shapeOf text))
        (sketchUpTo source number) := by
  have hrefl : Sketch.Agree (sketchUpTo source number) (sketchUpTo source number) :=
    ⟨rfl, rfl, rfl, rfl⟩
  rcases h with ⟨text, htext, hblank⟩ | ⟨d, hd, rfl, hcode⟩
  · refine ⟨text, htext, ?_⟩
    rw [hblank.shape]
    cases hstopped : (sketchUpTo source number).stopped with
    | true =>
      rw [Sketch.step_stopped hstopped]
      exact hrefl
    | false =>
      rw [Sketch.step_running hstopped]
      exact hrefl
  · obtain ⟨text, new, htext, hnew, hmem⟩ := reported_at hd
    have hlt := (List.getElem?_eq_some_iff.mp htext).1
    have hcodes : (sketchUpTo source (d.line + 1)).codes =
        (sketchUpTo source d.line).codes ++ new.map Diagnostic.code := by
      rw [← (stateUpTo_refines (Nat.succ_le_of_lt hlt)).codes, hnew, List.map_append,
        (stateUpTo_refines hlt.le).codes]
    have hdcode : d.code ∈ new.map Diagnostic.code := List.mem_map_of_mem hmem
    rw [sketchUpTo_succ htext] at hcodes
    refine ⟨text, htext, ?_⟩
    rcases (sketchUpTo source d.line).step_codes d.line (shapeOf text) with
      hnone | ⟨code, hreport⟩ | hfull
    · rw [hnone, List.self_eq_append_right] at hcodes
      rw [hcodes] at hdcode
      cases hdcode
    · rw [hreport]
      exact ⟨rfl, rfl, rfl, rfl⟩
    · -- a program without room is stopped, not skipped over
      rw [hfull, List.append_cancel_left_eq] at hcodes
      rw [← hcodes, List.mem_singleton] at hdcode
      have hnot : Code.PROGRAM_TOO_LARGE ∉ skipping := by decide
      rw [hdcode] at hcode
      exact absurd hcode hnot

theorem sketchOf_upTo {source text : Str} {number : Nat}
    (h : (source.splitOn '\n')[number]? = some text) :
    sketchOf source = Sketch.run (number + 1) ((shapes source).drop (number + 1))
      ((sketchUpTo source number).step number (shapeOf text)) := by
  have hlength : ((shapes source).take (number + 1)).length = number + 1 := by
    rw [List.length_take, shapes, List.length_map]
    exact Nat.min_eq_left (List.getElem?_eq_some_iff.mp h).1
  have hrun := Sketch.run_append 0 ((shapes source).take (number + 1))
    ((shapes source).drop (number + 1)) {}
  rw [List.take_append_drop, hlength, Nat.zero_add] at hrun
  rw [← sketchUpTo_succ h, sketchUpTo, List.map_take]
  exact hrun

theorem sketchOf_deleteLine {source text : Str} {number : Nat}
    (h : (source.splitOn '\n')[number]? = some text) :
    sketchOf (deleteLine source number) =
      Sketch.run number ((shapes source).drop (number + 1)) (sketchUpTo source number) := by
  have hlength : ((shapes source).take number).length = number := by
    rw [List.length_take, shapes, List.length_map]
    exact Nat.min_eq_left (List.getElem?_eq_some_iff.mp h).1.le
  have hrun := Sketch.run_append 0 ((shapes source).take number)
    ((shapes source).drop (number + 1)) {}
  rw [← List.eraseIdx_eq_take_drop_succ, hlength, Nat.zero_add] at hrun
  have hdelete : sketchOf (deleteLine source number) =
      Sketch.run 0 ((shapes source).eraseIdx number) {} := by
    rw [shapes, List.eraseIdx_map]
    by_cases hnil : (source.splitOn '\n').eraseIdx number = []
    · -- of a single line, an empty one is left
      have hempty : IsBlank [] := fun c hc => by cases hc
      have hnone : deleteLine source number = [] := by
        rw [deleteLine, hnil]
        rfl
      rw [hnone, hnil, sketchOf, List.splitOn_nil, List.map_singleton, hempty.shape]
      rfl
    · have hsplit : (deleteLine source number).splitOn '\n' =
          (source.splitOn '\n').eraseIdx number :=
        List.splitOn_intercalate '\n'
          (fun line hline => splitOn_line (List.mem_of_mem_eraseIdx hline)) hnil
      rw [sketchOf, hsplit]
  rw [hdelete, hrun, sketchUpTo, shapes, List.map_take]

/-- Two assemblies put the same words and labels in the same places. -/
structure SameProgram (a a' : Assembly) : Prop where
  origin : a.origin = a'.origin
  words : a.words = a'.words
  labels : ∀ name, a.symbols.addressOf name = a'.symbols.addressOf name

theorem Sketch.Agree.sameProgram {sk sk' : Sketch} (h : Agree sk sk') {source source' : Str}
    {a a' : Assembly} (houtlines : Outlines source a sk) (houtlines' : Outlines source' a' sk') :
    SameProgram a a' where
  origin := by
    rw [houtlines.origin, houtlines'.origin, originAddress, originAddress, h.origin]
  words := by
    have hwords := congrArg
      (List.map fun s => (wordOf sk'.addressOf s).toOption.getD 0) h.statements
    rw [List.map_map, List.map_map] at hwords
    rw [houtlines.words, houtlines'.words, words, words, h.labels]
    exact hwords
  labels := by
    intro name
    rw [houtlines.addressOf, houtlines'.addressOf, h.labels]

/-- Text that the assembler ignores has no influence: neither what comes after the line at
which `END` stops it, nor a blank line or one that the first pass skips. -/
theorem ignored_text (source : Str) (number : Nat) :
    (StopsAt source number → ∀ source', SameUpTo (number + 1) source source' →
      Alike (assemble source) (assemble source')) ∧
    (Skipped source number →
      SameProgram (assemble source) (assemble (deleteLine source number))) := by
  constructor
  · intro hstops source' hsame
    exact alike_upTo_end hstops hsame
  · intro hskipped
    obtain ⟨text, htext, hagree⟩ := hskipped.step
    have hrun := hagree.run (number + 1) number ((shapes source).drop (number + 1))
    rw [← sketchOf_upTo htext, ← sketchOf_deleteLine htext] at hrun
    exact hrun.sameProgram (assemble_outlines source) (assemble_outlines _)

/-- A label that is defined twice, and again after `END`. -/
theorem ignored_text_duplicate :
    Alike (assemble "X, DEC 1\nX, DEC 2\nLoad X\nEND\nX, DEC 3".toList)
        (assemble "X, DEC 1\nX, DEC 2\nLoad X\nEND".toList) ∧
      SameProgram (assemble "X, DEC 1\nX, DEC 2\nLoad X\nEND\nX, DEC 3".toList)
        (assemble "X, DEC 1\nLoad X\nEND\nX, DEC 3".toList) := by
  have hstops : StopsAt "X, DEC 1\nX, DEC 2\nLoad X\nEND\nX, DEC 3".toList 3 := by
    unfold StopsAt
    decide +kernel
  have hskipped : Skipped "X, DEC 1\nX, DEC 2\nLoad X\nEND\nX, DEC 3".toList 1 := by
    refine .inr ?_
    decide +kernel
  have hdelete : deleteLine "X, DEC 1\nX, DEC 2\nLoad X\nEND\nX, DEC 3".toList 1 =
      "X, DEC 1\nLoad X\nEND\nX, DEC 3".toList := by decide +kernel
  have hsame := (ignored_text _ 1).2 hskipped
  rw [hdelete] at hsame
  refine ⟨(ignored_text _ 3).1 hstops _ ?_, hsame⟩
  unfold SameUpTo
  decide +kernel

end MarieRs.Asm
