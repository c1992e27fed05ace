import MarieRs.Asm.Outline

namespace MarieRs.Asm

/-! The second pass with spans left out: the word of a statement, or why it has none. -/

/-- A map from label names to addresses. -/
abbrev Labels := Str → Option MemoryAddress

def literalWord (radix : Radix) : Option Str → Except Code Word
  | none => .error .MISSING_OPERAND
  | some text =>
    match parseWord text radix with
    | .ok value => .ok value
    | .error .outOfRange => .error .LITERAL_OUT_OF_RANGE
    | .error _ => .error .MALFORMED_LITERAL

/-- The address that an operand in literal form writes, if it fits. -/
def literalAddress (text : Str) : Option MemoryAddress :=
  let digits := text.dropWhile (· == '0')
  let value :=
    if digits = [] then some 0
    else if utf8Len digits ≤ 3 then fromStrRadix (2 ^ 16 - 1) 16 digits
    else none
  value.bind MemoryAddress.tryNew

def operandAddress (labels : Labels) (text : Str) : Except Code MemoryAddress :=
  if looksLikeAddressLiteral text then
    match literalAddress text with
    | some address => .ok address
    | none => .error .ADDRESS_OUT_OF_RANGE
  else
    match labels text with
    | some address => .ok address
    | none => .error .UNKNOWN_LABEL

def instructionWord (labels : Labels) (opcode : Opcode) : Option Str → Except Code Word
  | none =>
    if opcode.takesOperand then .error .MISSING_OPERAND
    else .ok (Instruction.encode ⟨opcode, MemoryAddress.zero⟩)
  | some text =>
    if ¬ opcode.takesOperand then .error .UNEXPECTED_OPERAND
    else
      match operandAddress labels text with
      | .ok address => .ok (Instruction.encode ⟨opcode, address⟩)
      | .error code => .error code

def wordOf (labels : Labels) (s : Statement) : Except Code Word :=
  match classify (toAsciiLowercase s.mnemonic) with
  | .opcode opcode => instructionWord labels opcode s.operand
  | .directive .adr => instructionWord labels .jnS s.operand
  | .directive .clear => instructionWord labels .loadImmi (some ['0'])
  | .directive .dec => literalWord .decimal s.operand
  | .directive .oct => literalWord .octal s.operand
  | .directive .hex => literalWord .hexadecimal s.operand
  | .directive .org | .directive .end_ | .unknown => .error .UNKNOWN_MNEMONIC

/-- The opcode that works on the operand as it is written. -/
def operandOpcode : MnemonicKind → Option Opcode
  | .opcode opcode => some opcode
  | .directive .adr => some .jnS
  | _ => none

theorem wordOf_opcode {labels : Labels} {s : Statement} {opcode : Opcode}
    (h : operandOpcode (classify (toAsciiLowercase s.mnemonic)) = some opcode) :
    wordOf labels s = instructionWord labels opcode s.operand := by
  rw [wordOf]
  cases hkind : classify (toAsciiLowercase s.mnemonic) with
  | unknown => rw [hkind] at h; cases h
  | opcode opcode' => rw [hkind] at h; cases h; rfl
  | directive directive =>
    rw [hkind] at h
    cases directive with
    | adr => cases h; rfl
    | org | end_ | clear | dec | oct | hex => cases h

theorem instructionWord_operand {labels : Labels} {opcode : Opcode} {text : Str} {word : Word}
    (h : instructionWord labels opcode (some text) = .ok word) :
    opcode.takesOperand = true ∧ ∃ address, operandAddress labels text = .ok address ∧
      word = Instruction.encode ⟨opcode, address⟩ := by
  simp only [instructionWord] at h
  split at h
  · cases h
  · rename_i htakes
    split at h
    · rename_i address haddress
      cases h
      exact ⟨not_not.mp htakes, address, haddress, rfl⟩
    · cases h

theorem operandAddress_literal {labels : Labels} {text : Str} {address : MemoryAddress}
    (hliteral : looksLikeAddressLiteral text = true)
    (h : operandAddress labels text = .ok address) : literalAddress text = some address := by
  rw [operandAddress, if_pos hliteral] at h
  split at h
  · rename_i found hfound
    cases h
    exact hfound
  · cases h

/-- The spans at which an operand uses a name. -/
def operandUses (opcode : Opcode) (operand : Option Operand) (name : Str) : List Span :=
  match operand with
  | none => []
  | some operand =>
    if opcode.takesOperand ∧ ¬ looksLikeAddressLiteral operand.text ∧ operand.text = name then
      [operand.span]
    else []

def uses (item : Item) : Str → List Span :=
  match operandOpcode item.mnemonic.kind with
  | some opcode => operandUses opcode item.operand
  | none => fun _ => []

/-- The mnemonic of an item is read as the parser reads it. -/
def WellRead (item : Item) : Prop :=
  item.mnemonic.lowercase = toAsciiLowercase item.mnemonic.text ∧
    item.mnemonic.kind = classify item.mnemonic.lowercase

theorem ReadItem.wellRead {source : Str} {item : Item} (h : ReadItem source item) :
    WellRead item := by
  obtain ⟨text, base, label, mnemonic, operand, comment, -, -, hmnemonic, -⟩ := h
  rw [WellRead, hmnemonic]
  exact ⟨rfl, rfl⟩

def failure {α : Type} : Except Code α → List Code
  | .ok _ => []
  | .error code => [code]

/-- What working out something for an item leaves behind: one error if there is no
outcome, and the spans of looked-up operands in the references of their labels. -/
structure Leaves {α : Type} (outcome : Except Code α) (used : Str → List Span)
    (st st' : AssembleState) : Prop where
  reported : ∃ new, st'.diagnostics = st.diagnostics ++ new ∧
    (∀ d ∈ new, d.isError = true) ∧
    new.map Diagnostic.code = failure outcome
  symbols : ∀ name, st'.symbols.get name =
    (st.symbols.get name).map fun s => { s with references := s.references ++ used name }

theorem Leaves.ok {α : Type} {value : α} {st : AssembleState} :
    Leaves (.ok value) (fun _ => []) st st where
  reported := ⟨[], by simp, by simp, rfl⟩
  symbols := by simp

theorem Leaves.failed {α : Type} {code : Code} {st : AssembleState} {d : Diagnostic}
    (hd : d.isError = true) (hcode : d.code = code) :
    Leaves (.error code : Except Code α) (fun _ => []) st (st.report d) where
  reported := ⟨[d], rfl, by simpa using hd, by simp [hcode, failure]⟩
  symbols := by simp [AssembleState.report]

theorem assembleLiteral_spec (item : Item) (radix : Radix) (st : AssembleState) :
    (assembleLiteral item radix st).1 =
        (literalWord radix (item.operand.map Operand.text)).toOption.getD 0 ∧
      Leaves (literalWord radix (item.operand.map Operand.text)) (fun _ => []) st
        (assembleLiteral item radix st).2 := by
  unfold assembleLiteral
  cases item.operand with
  | none => exact ⟨rfl, .failed rfl rfl⟩
  | some operand =>
    simp only [Option.map_some, literalWord]
    cases parseWord operand.text radix with
    | ok value => exact ⟨rfl, .ok⟩
    | error reason => cases reason <;> exact ⟨rfl, .failed rfl rfl⟩

theorem parseAddressLiteral_spec (item : Item) (operand : Operand) (st : AssembleState) :
    (parseAddressLiteral item operand st).1 = literalAddress operand.text ∧
      Leaves (match literalAddress operand.text with
        | some address => .ok address
        | none => .error .ADDRESS_OUT_OF_RANGE) (fun _ => []) st
        (parseAddressLiteral item operand st).2 := by
  cases h : literalAddress operand.text with
  | none =>
    simp only [literalAddress] at h
    simp only [parseAddressLiteral, h]
    exact ⟨trivial, .failed rfl rfl⟩
  | some address =>
    simp only [literalAddress] at h
    simp only [parseAddressLiteral, h]
    exact ⟨trivial, .ok⟩

theorem resolveOperand_spec (item : Item) (operand : Operand) (st : AssembleState) :
    (resolveOperand item operand st).1 =
        (operandAddress st.symbols.addressOf operand.text).toOption ∧
      Leaves (operandAddress st.symbols.addressOf operand.text)
        (fun name =>
          if ¬ looksLikeAddressLiteral operand.text ∧ operand.text = name then [operand.span]
          else [])
        st (resolveOperand item operand st).2 := by
  rw [resolveOperand, operandAddress]
  cases hliteral : looksLikeAddressLiteral operand.text with
  | true =>
    have hspec := parseAddressLiteral_spec item operand st
    simp only [if_true, not_true, false_and, if_false]
    refine ⟨?_, hspec.2⟩
    rw [hspec.1]
    cases literalAddress operand.text <;> rfl
  | false =>
    simp only [Bool.false_eq_true, if_false, not_false_iff, true_and]
    have haddress := st.symbols.reference_address operand.text operand.span
    have hsymbols : ∀ name, (st.symbols.reference operand.text operand.span).2.get name =
        (st.symbols.get name).map fun s => { s with
          references := s.references ++
            if operand.text = name then [operand.span] else [] } := by
      intro name
      rw [SymbolTable.get_reference]
      by_cases hname : name = operand.text
      · simp [hname]
      · simp [hname, Ne.symm hname]
    generalize st.symbols.reference operand.text operand.span = result at haddress hsymbols ⊢
    obtain ⟨address, symbols⟩ := result
    rw [← haddress]
    cases address with
    | some address => exact ⟨rfl, ⟨[], by simp, by simp, rfl⟩, hsymbols⟩
    | none => exact ⟨rfl, ⟨[_], rfl, by simp, rfl⟩, hsymbols⟩

theorem assembleInstruction_spec {item : Item} (st : AssembleState) {opcode : Opcode}
    {operand : Option Operand} (h : resolveAlias item st = (some (opcode, operand), st)) :
    (assembleInstruction item st).1 =
        (instructionWord st.symbols.addressOf opcode
          (operand.map Operand.text)).toOption.getD 0 ∧
      Leaves (instructionWord st.symbols.addressOf opcode (operand.map Operand.text))
        (operandUses opcode operand) st (assembleInstruction item st).2 := by
  rw [assembleInstruction, h]
  cases operand with
  | none =>
    simp only [Option.map_none, instructionWord]
    split
    · exact ⟨rfl, .failed rfl rfl⟩
    · exact ⟨rfl, .ok⟩
  | some operand =>
    simp only [Option.map_some, instructionWord]
    by_cases htakes : opcode.takesOperand
    · have hspec := resolveOperand_spec item operand st
      have huses : operandUses opcode (some operand) = fun name =>
          if ¬ looksLikeAddressLiteral operand.text ∧ operand.text = name then [operand.span]
          else [] := by
        funext name
        simp [operandUses, htakes]
      rw [huses, if_neg (not_not.mpr htakes), if_neg (not_not.mpr htakes)]
      generalize resolveOperand item operand st = result at hspec ⊢
      obtain ⟨address, st'⟩ := result
      obtain ⟨haddress, hreported, hsymbols⟩ := hspec
      simp only at haddress hsymbols
      cases houtcome : operandAddress st.symbols.addressOf operand.text with
      | ok value =>
        rw [houtcome] at haddress hreported
        subst haddress
        exact ⟨rfl, hreported, hsymbols⟩
      | error code =>
        rw [houtcome] at haddress hreported
        subst haddress
        exact ⟨rfl, hreported, hsymbols⟩
    · have huses : operandUses opcode (some operand) = fun _ => [] := by
        funext name
        simp [operandUses, htakes]
      rw [huses, if_pos htakes, if_pos htakes]
      exact ⟨rfl, .failed rfl rfl⟩

/-- One item of the second pass. -/
theorem assembleItem_spec {item : Item} (hread : WellRead item) (st : AssembleState) :
    (assembleItem item st).1 =
        (wordOf st.symbols.addressOf (placedOf item).statement).toOption.getD 0 ∧
      Leaves (wordOf st.symbols.addressOf (placedOf item).statement) (uses item) st
        (assembleItem item st).2 := by
  obtain ⟨hlowercase, hkind⟩ := hread
  rw [hlowercase] at hkind
  have hclear : operandUses .loadImmi (some ⟨['0'], item.mnemonic.span⟩) = fun _ => [] := by
    funext name
    rfl
  simp only [assembleItem, wordOf, placedOf, ← hkind, uses]
  cases hk : item.mnemonic.kind with
  | opcode opcode => exact assembleInstruction_spec st (by rw [resolveAlias, hk])
  | unknown =>
    simp only [assembleInstruction, resolveAlias, hk]
    exact ⟨rfl, .failed rfl rfl⟩
  | directive directive =>
    cases directive with
    | dec | oct | hex => exact assembleLiteral_spec item _ st
    | adr => exact assembleInstruction_spec st (by rw [resolveAlias, hk])
    | clear =>
      have hspec := assembleInstruction_spec st
        (by rw [resolveAlias, hk] :
          resolveAlias item st = (some (.loadImmi, some ⟨['0'], item.mnemonic.span⟩), st))
      rw [hclear] at hspec
      exact hspec
    | org | end_ =>
      simp only [Directive.literalRadix, assembleInstruction, resolveAlias, hk]
      exact ⟨rfl, .failed rfl rfl⟩

theorem Leaves.addressOf {α : Type} {outcome : Except Code α} {used : Str → List Span}
    {st st' : AssembleState} (h : Leaves outcome used st st') :
    st'.symbols.addressOf = st.symbols.addressOf := by
  funext name
  rw [SymbolTable.addressOf, SymbolTable.addressOf, h.symbols]
  cases st.symbols.get name <;> rfl

/-- All items of the second pass: no item changes what the labels mean to the next. -/
theorem assembleItems_spec {items : List Item} (hread : ∀ item ∈ items, WellRead item)
    (st : AssembleState) :
    (assembleItems items st).1 = items.map (fun item =>
        (wordOf st.symbols.addressOf (placedOf item).statement).toOption.getD 0) ∧
      (∃ new, (assembleItems items st).2.diagnostics = st.diagnostics ++ new ∧
        (∀ d ∈ new, d.isError = true) ∧
        new.map Diagnostic.code = items.flatMap (fun item =>
          failure (wordOf st.symbols.addressOf (placedOf item).statement))) ∧
      ∀ name, (assembleItems items st).2.symbols.get name =
        (st.symbols.get name).map fun s =>
          { s with references := s.references ++ items.flatMap (uses · name) } := by
  induction items generalizing st with
  | nil => exact ⟨rfl, ⟨[], by simp [assembleItems], by simp, rfl⟩, by simp [assembleItems]⟩
  | cons item items ih =>
    obtain ⟨hword, hleaves⟩ := assembleItem_spec (hread item List.mem_cons_self) st
    obtain ⟨hwords, ⟨new, hnew, herrors, hcodes⟩, hsymbols⟩ :=
      ih (fun item hitem => hread item (List.mem_cons_of_mem _ hitem)) (assembleItem item st).2
    obtain ⟨first, hfirst, hfirstErrors, hfirstCodes⟩ := hleaves.reported
    rw [hleaves.addressOf] at hwords hcodes
    refine ⟨?_, ⟨first ++ new, ?_, ?_, ?_⟩, fun name => ?_⟩
    · rw [List.map_cons, ← hword, ← hwords]
      rfl
    · rw [← List.append_assoc, ← hfirst, ← hnew]
      rfl
    · intro d hd
      rcases List.mem_append.mp hd with hd | hd
      · exact hfirstErrors d hd
      · exact herrors d hd
    · rw [List.map_append, hfirstCodes, hcodes, List.flatMap_cons]
    · have hname := hsymbols name
      rw [hleaves.symbols, Option.map_map] at hname
      simp only [List.flatMap_cons, ← List.append_assoc]
      exact hname

namespace Sketch

def addressOf (sk : Sketch) : Labels := fun name => (sk.labels name).map Prod.fst

def words (sk : Sketch) : List Word :=
  sk.items.map fun p => (wordOf sk.addressOf p.statement).toOption.getD 0

def failures (sk : Sketch) : List Code :=
  sk.items.flatMap fun p => failure (wordOf sk.addressOf p.statement)

end Sketch

theorem Refines.addressOf {source : Str} {st : ParseState} {sk : Sketch}
    (h : Refines source st sk) : st.out.symbols.addressOf = sk.addressOf := by
  funext name
  rw [SymbolTable.addressOf, Sketch.addressOf, ← h.labels, Option.map_map]
  rfl

/-- The sketch accounts for an assembly, spans apart. -/
structure Outlines (source : Str) (a : Assembly) (sk : Sketch) : Prop where
  origin : a.origin = sk.originAddress
  items : a.program.items.map placedOf = sk.items
  ended : a.program.end_.map End.line = sk.ended.map Placed.line
  words : a.words = sk.words
  labels : ∀ name, (a.symbols.get name).map (fun s => (s.address, s.line)) = sk.labels name
  lineFor : a.sourceMap.lineFor = sk.lineFor
  addressFor : a.sourceMap.addressFor = sk.addressFor
  codes : a.diagnostics.map Diagnostic.code = sk.codes ++ sk.failures
  errors : ∀ d ∈ a.diagnostics, d.isError = true
  readItems : ∀ item ∈ a.program.items, ReadItem source item
  readSymbols : ∀ name symbol, a.symbols.get name = some symbol →
    ∃ read, ReadSymbol source name read ∧
      symbol = { read with references := a.program.items.flatMap (uses · name) }

/-- Both passes over any source do what its sketch does. -/
theorem assemble_outlines (source : Str) : Outlines source (assemble source) (sketchOf source) := by
  obtain ⟨st, hparse, hrefines⟩ := parse_refines source
  have hread : ∀ item ∈ st.out.program.items, WellRead item :=
    fun item hitem => (hrefines.readItems item hitem).wellRead
  have haddressOf := hrefines.addressOf
  obtain ⟨hwords, ⟨new, hnew, herrors, hcodes⟩, hsymbols⟩ :=
    assembleItems_spec hread ⟨st.out.symbols, st.diagnostics⟩
  rw [haddressOf] at hwords hcodes
  simp only [assemble, hparse]
  exact
    { origin := hrefines.originAddress
      items := hrefines.items
      ended := hrefines.ended
      words := by
        rw [Sketch.words, ← hrefines.items, List.map_map]
        exact hwords
      labels := fun name => by
        rw [hsymbols, Option.map_map]
        exact hrefines.labels name
      lineFor := hrefines.lineFor
      addressFor := hrefines.addressFor
      codes := by
        rw [hnew, List.map_append, hrefines.codes, hcodes, Sketch.failures, ← hrefines.items,
          List.flatMap_map]
      errors := by
        intro d hd
        rw [hnew] at hd
        rcases List.mem_append.mp hd with hd | hd
        · exact hrefines.errors d hd
        · exact herrors d hd
      readItems := hrefines.readItems
      readSymbols := by
        intro name symbol hsymbol
        rw [hsymbols] at hsymbol
        obtain ⟨read, hread, rfl⟩ := Option.map_eq_some_iff.mp hsymbol
        have hreadSymbol := hrefines.readSymbols name read hread
        obtain ⟨_, _, _, _, _, _, _, _, _, _, hreferences⟩ := hreadSymbol
        refine ⟨read, hrefines.readSymbols name read hread, ?_⟩
        rw [hreferences, List.nil_append] }

theorem Outlines.succeeded {source : Str} {a : Assembly} {sk : Sketch}
    (h : Outlines source a sk) : a.succeeded ↔ sk.codes = [] ∧ sk.failures = [] := by
  rw [← List.append_eq_nil_iff, ← h.codes, List.map_eq_nil_iff, Assembly.succeeded]
  constructor
  · intro hnone
    refine List.eq_nil_iff_forall_not_mem.mpr fun d hd => ?_
    have := List.any_eq_true.mpr ⟨d, hd, h.errors d hd⟩
    simp [this] at hnone
  · intro hnil
    simp [hnil]

theorem Outlines.addressOf {source : Str} {a : Assembly} {sk : Sketch} (h : Outlines source a sk)
    (name : Str) : a.symbols.addressOf name = sk.addressOf name := by
  rw [SymbolTable.addressOf, Sketch.addressOf, ← h.labels, Option.map_map]
  rfl

/-- Without errors every item has its word. -/
theorem Outlines.wordOf_ok {source : Str} {a : Assembly} {sk : Sketch} (h : Outlines source a sk)
    (hok : a.succeeded = true) {p : Placed} (hp : p ∈ sk.items) :
    ∃ word, wordOf sk.addressOf p.statement = .ok word := by
  cases hword : wordOf sk.addressOf p.statement with
  | ok word => exact ⟨word, rfl⟩
  | error code =>
    have hnone := List.flatMap_eq_nil_iff.mp (h.succeeded.mp hok).2 p hp
    rw [hword] at hnone
    cases hnone

theorem Outlines.word {source : Str} {a : Assembly} {sk : Sketch} (h : Outlines source a sk)
    (hok : a.succeeded = true) {i : Nat} {item : Item} (hitem : a.program.items[i]? = some item) :
    ∃ word, wordOf sk.addressOf (placedOf item).statement = .ok word ∧
      a.words[i]? = some word := by
  have hplaced : sk.items[i]? = some (placedOf item) := by
    rw [← h.items, List.getElem?_map, hitem, Option.map_some]
  obtain ⟨word, hword⟩ := h.wordOf_ok hok (List.mem_of_getElem? hplaced)
  refine ⟨word, hword, ?_⟩
  rw [h.words, Sketch.words, List.getElem?_map, hplaced, Option.map_some, hword]
  rfl

end MarieRs.Asm
