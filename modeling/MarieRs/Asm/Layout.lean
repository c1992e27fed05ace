import MarieRs.Asm.Words

namespace MarieRs.Asm

namespace Sketch

/-- Everything that was given an address: the items, then the line of `END`. -/
def statements (sk : Sketch) : List Placed := sk.items ++ sk.ended.toList

/-- All that a line can do to a sketch. -/
inductive Moves (sk : Sketch) (line : Nat) (shape : Shape) : Sketch → Prop where
  | stays (codes : List Code) (stopped : Bool) (h : stopped = false → sk.stopped = false) :
    Moves sk line shape { sk with codes, stopped }
  | origin (address : MemoryAddress) (hrunning : sk.stopped = false) (hitems : sk.items = [])
    (horigin : sk.origin = none) : Moves sk line shape { sk with origin := some address }
  | accepts (s : Statement) (address : MemoryAddress) (hshape : shape = .statement s)
    (hrunning : sk.stopped = false)
    (haddress : address.toNat = sk.originAddress.toNat + sk.items.length)
    (hlabel : ∀ name, s.label = some name → rejection sk.labels name = none) :
    Moves sk line shape (sk.accept ⟨line, address, s⟩)

theorem step_moves (sk : Sketch) (line : Nat) (shape : Shape) :
    Moves sk line shape (sk.step line shape) := by
  cases hstopped : sk.stopped with
  | true =>
    rw [step_stopped hstopped]
    exact .stays sk.codes sk.stopped id
  | false =>
    rw [step_running hstopped]
    cases shape with
    | blank => exact .stays sk.codes sk.stopped id
    | malformed => exact .stays _ sk.stopped id
    | origin digits =>
      simp only [stepForm]
      split
      · exact .stays _ sk.stopped id
      · rename_i hfirst
        rw [not_or, not_not] at hfirst
        exact .origin _ hstopped (by simpa using hfirst.1) (by simpa using hfirst.2)
    | statement s =>
      simp only [stepForm, stepStatement]
      split
      · exact .stays _ true fun h => by cases h
      · rename_i address haddress
        split
        · exact .stays _ sk.stopped id
        · rename_i hlabel
          refine .accepts s address rfl hstopped (MemoryAddress.tryNew_eq_some.mp haddress).symm ?_
          intro name hname
          simpa [hname] using hlabel

theorem accept_origin (sk : Sketch) (p : Placed) :
    (sk.accept p).originAddress = sk.originAddress := by
  unfold accept
  cases p.statement.label <;> rfl

theorem accept_items (sk : Sketch) (p : Placed) :
    (sk.accept p).items = if isEnd p.statement then sk.items else sk.items ++ [p] := by
  unfold accept
  cases p.statement.label <;> rfl

theorem accept_stopped (sk : Sketch) (p : Placed) :
    (sk.accept p).stopped = isEnd p.statement := by
  unfold accept
  cases p.statement.label <;> rfl

theorem accept_codes (sk : Sketch) (p : Placed) : (sk.accept p).codes = sk.codes := by
  unfold accept
  cases p.statement.label <;> rfl

theorem accept_ended (sk : Sketch) (p : Placed) :
    (sk.accept p).ended = if isEnd p.statement then some p else sk.ended := by
  unfold accept
  cases p.statement.label <;> rfl

theorem accept_statements {sk : Sketch} (h : sk.ended = none) (p : Placed) :
    (sk.accept p).statements = sk.statements ++ [p] := by
  rw [statements, statements, accept_items, accept_ended, h]
  cases isEnd p.statement with
  | true => simp
  | false => simp

theorem accept_running {sk : Sketch} (h : sk.ended = none) (p : Placed) :
    (sk.accept p).stopped = false → (sk.accept p).ended = none := by
  rw [accept_stopped, accept_ended]
  intro hrunning
  rw [hrunning, if_neg Bool.false_ne_true]
  exact h

theorem accept_lineFor (sk : Sketch) (p : Placed) :
    (sk.accept p).lineFor = Function.update sk.lineFor p.address (some p.line) := by
  unfold accept
  cases p.statement.label <;> rfl

theorem accept_addressFor (sk : Sketch) (p : Placed) :
    (sk.accept p).addressFor = Function.update sk.addressFor p.line (some p.address) := by
  unfold accept
  cases p.statement.label <;> rfl

theorem accept_labels (sk : Sketch) (p : Placed) (name : Str) :
    (sk.accept p).labels name =
      if p.statement.label = some name then some (p.address, p.line) else sk.labels name := by
  unfold accept
  cases hlabel : p.statement.label with
  | none => simp [place]
  | some defined =>
    simp only [place, define, Function.update_apply, Option.some.injEq]
    exact if_congr eq_comm rfl rfl

/-- What the assembler asks of the name of a label. -/
def WellNamed (name : Str) : Prop :=
  (name.head?).any isAsciiDigit = false ∧ name.any isWhitespace = false

/-- The layout invariant, after the lines before `number`. -/
structure Laid (shapes : List Shape) (number : Nat) (sk : Sketch) : Prop where
  address : ∀ k p, sk.statements[k]? = some p → p.address.toNat = sk.originAddress.toNat + k
  increasing : sk.statements.Pairwise (fun p q => p.line < q.line)
  line : ∀ p ∈ sk.statements, p.line < number ∧ shapes[p.line]? = some (.statement p.statement)
  labels : ∀ name address line, sk.labels name = some (address, line) ↔
    ∃ p ∈ sk.statements, p.statement.label = some name ∧ p.address = address ∧ p.line = line
  lineFor : ∀ address line, sk.lineFor address = some line ↔
    ∃ p ∈ sk.statements, p.address = address ∧ p.line = line
  addressFor : ∀ line address, sk.addressFor line = some address ↔
    ∃ p ∈ sk.statements, p.address = address ∧ p.line = line
  running : sk.stopped = false → sk.ended = none
  named : ∀ p ∈ sk.statements, ∀ name, p.statement.label = some name → WellNamed name

theorem Laid.start (shapes : List Shape) : Laid shapes 0 {} where
  address := by simp [statements]
  increasing := by simp [statements]
  line := by simp [statements]
  labels := by simp [statements]
  lineFor := by simp [statements]
  addressFor := by simp [statements]
  running := fun _ => rfl
  named := by simp [statements]

theorem rejection_fresh {labels : Str → Option (MemoryAddress × Nat)} {name : Str}
    (h : rejection labels name = none) : labels name = none := by
  unfold rejection at h
  repeat' first | split at h | cases h
  rename_i hdefined
  exact Option.not_isSome_iff_eq_none.mp hdefined

theorem rejection_named {labels : Str → Option (MemoryAddress × Nat)} {name : Str}
    (h : rejection labels name = none) : WellNamed name := by
  unfold rejection at h
  repeat' first | split at h | cases h
  rename_i hdigit hspace _
  exact ⟨by simpa using hdigit, by simpa using hspace⟩

/-- A table of what statements record has what one more records after an update, if that one
has a key of its own. -/
theorem update_records {α β : Type} [DecidableEq α] {records : Placed → α → β → Prop}
    {table : α → Option β} {statements : List Placed} {p : Placed} {key : α} {value : β}
    (htable : ∀ a b, table a = some b ↔ ∃ q ∈ statements, records q a b)
    (hrecords : ∀ a b, records p a b ↔ key = a ∧ value = b)
    (hfresh : ∀ q ∈ statements, ∀ b, ¬ records q key b) (a : α) (b : β) :
    Function.update table key (some value) a = some b ↔
      ∃ q ∈ statements ++ [p], records q a b := by
  simp only [Function.update_apply, List.mem_append, List.mem_singleton, or_and_right, exists_or,
    exists_eq_left, hrecords]
  by_cases ha : a = key
  · subst ha
    rw [if_pos rfl, Option.some.injEq]
    constructor
    · intro hb
      exact .inr ⟨rfl, hb⟩
    · rintro (⟨q, hq, hrecorded⟩ | ⟨-, hb⟩)
      · exact absurd hrecorded (hfresh q hq b)
      · exact hb
  · rw [if_neg ha, htable]
    simp [Ne.symm ha]

theorem Laid.accept {shapes : List Shape} {number : Nat} {sk : Sketch} (h : Laid shapes number sk)
    (hended : sk.ended = none) {s : Statement} {address : MemoryAddress}
    (hshape : shapes[number]? = some (.statement s))
    (haddress : address.toNat = sk.originAddress.toNat + sk.items.length)
    (hlabel : ∀ name, s.label = some name → rejection sk.labels name = none) :
    Laid shapes (number + 1) (sk.accept ⟨number, address, s⟩) := by
  have hstatements := accept_statements hended ⟨number, address, s⟩
  have hlength : sk.statements.length = sk.items.length := by simp [statements, hended]
  have hbefore : ∀ q ∈ sk.statements, q.address.toNat < address.toNat := by
    intro q hq
    obtain ⟨k, hk, hget⟩ := List.mem_iff_getElem.mp hq
    have := h.address k q (List.getElem?_eq_some_iff.mpr ⟨hk, hget⟩)
    omega
  refine ⟨?_, ?_, ?_, ?_, ?_, ?_, accept_running hended _, ?_⟩
  · intro k p hp
    rw [accept_origin]
    rw [hstatements, List.getElem?_append] at hp
    split at hp
    · exact h.address k p hp
    · obtain ⟨hk, rfl⟩ := List.getElem?_eq_some_iff.mp hp
      simp only [List.length_singleton] at hk
      simp only [List.getElem_singleton]
      omega
  · rw [hstatements, List.pairwise_append]
    refine ⟨h.increasing, List.pairwise_singleton _ _, fun p hp q hq => ?_⟩
    rw [List.mem_singleton.mp hq]
    exact (h.line p hp).1
  · intro p hp
    rw [hstatements] at hp
    rcases List.mem_append.mp hp with hp | hp
    · exact ⟨Nat.lt_succ_of_lt (h.line p hp).1, (h.line p hp).2⟩
    · rw [List.mem_singleton.mp hp]
      exact ⟨Nat.lt_succ_self number, hshape⟩
  · intro name a l
    simp only [accept_labels, hstatements, List.mem_append, List.mem_singleton, or_and_right,
      exists_or, exists_eq_left]
    by_cases hname : s.label = some name
    · have hfresh : ∀ q ∈ sk.statements, q.statement.label ≠ some name := by
        intro q hq hqname
        have := (h.labels name q.address q.line).mpr ⟨q, hq, hqname, rfl, rfl⟩
        rw [rejection_fresh (hlabel name hname)] at this
        cases this
      rw [if_pos hname, Option.some.injEq, Prod.mk.injEq]
      constructor
      · rintro ⟨rfl, rfl⟩
        exact .inr ⟨hname, rfl, rfl⟩
      · rintro (⟨q, hq, hqname, -⟩ | ⟨-, rfl, rfl⟩)
        · exact absurd hqname (hfresh q hq)
        · exact ⟨rfl, rfl⟩
    · rw [if_neg hname, h.labels]
      simp [hname]
  · rw [accept_lineFor, hstatements]
    refine update_records h.lineFor (fun _ _ => Iff.rfl) ?_
    rintro q hq _ ⟨haddress, -⟩
    exact absurd (haddress ▸ hbefore q hq) (lt_irrefl _)
  · rw [accept_addressFor, hstatements]
    refine update_records h.addressFor (fun _ _ => and_comm) ?_
    rintro q hq _ ⟨-, hline⟩
    exact absurd (hline ▸ (h.line q hq).1) (lt_irrefl _)
  · intro p hp name hname
    rw [hstatements] at hp
    rcases List.mem_append.mp hp with hp | hp
    · exact h.named p hp name hname
    · rw [List.mem_singleton.mp hp] at hname
      exact rejection_named (hlabel name hname)

/-- One line keeps the layout. -/
theorem Laid.step {shapes : List Shape} {number : Nat} {sk : Sketch} (h : Laid shapes number sk)
    {shape : Shape} (hshape : shapes[number]? = some shape) :
    Laid shapes (number + 1) (sk.step number shape) := by
  have hline : ∀ p ∈ sk.statements,
      p.line < number + 1 ∧ shapes[p.line]? = some (.statement p.statement) :=
    fun p hp => ⟨Nat.lt_succ_of_lt (h.line p hp).1, (h.line p hp).2⟩
  have hmoves := sk.step_moves number shape
  generalize sk.step number shape = sk' at hmoves ⊢
  cases hmoves with
  | stays codes stopped hstopped =>
    exact { h with line := hline, running := fun hrunning => h.running (hstopped hrunning) }
  | origin address hrunning hitems horigin =>
    have hnone : sk.statements = [] := by
      rw [statements, hitems, h.running hrunning]
      rfl
    refine { h with line := hline, address := fun k p hp => ?_ }
    have hp : sk.statements[k]? = some p := hp
    rw [hnone] at hp
    cases hp
  | accepts s address hstatement hrunning haddress hlabel =>
    exact h.accept (h.running hrunning) (hstatement ▸ hshape) haddress hlabel

/-- A whole run keeps the layout. -/
theorem Laid.run {shapes rest : List Shape} {number : Nat} {sk : Sketch}
    (h : Laid shapes number sk) (hrest : shapes.drop number = rest) :
    Laid shapes (number + rest.length) (Sketch.run number rest sk) := by
  induction rest generalizing number sk with
  | nil => exact h
  | cons shape rest ih =>
    have hshape : shapes[number]? = some shape := by
      rw [← List.head?_drop, hrest, List.head?_cons]
    have hdrop : shapes.drop (number + 1) = rest := by
      rw [← List.drop_drop, hrest, List.drop_one, List.tail_cons]
    rw [List.length_cons, Nat.add_comm rest.length, ← Nat.add_assoc]
    exact ih (h.step hshape) hdrop

end Sketch

/-- The shapes of the lines of a source. -/
def shapes (source : Str) : List Shape := (source.splitOn '\n').map shapeOf

theorem sketchOf_laid (source : Str) :
    Sketch.Laid (shapes source) (shapes source).length (sketchOf source) := by
  have h := (Sketch.Laid.start (shapes source)).run List.drop_zero
  rwa [Nat.zero_add] at h

/-- The statement on a line, as the line spells it. -/
def statementOn (source : Str) (line : Nat) : Option Statement :=
  match (shapes source)[line]? with
  | some (.statement s) => some s
  | _ => none

def labelOn (source : Str) (line : Nat) : Option Str := (statementOn source line).bind (·.label)

/-- The lines and addresses of the statements: the items, then the line of `END`,
whose address is the one the next word would have had. -/
def Assembly.places (a : Assembly) : List (Nat × MemoryAddress) :=
  a.program.items.map (fun item => (item.line, item.address)) ++
    a.program.end_.toList.map (fun e =>
      (e.line, BitVec.ofNat 12 (a.origin.toNat + a.program.items.length)))

/-- What the first pass promises about the layout of an assembly. -/
structure LaidOut (source : Str) (a : Assembly) : Prop where
  address : ∀ k item, a.program.items[k]? = some item →
    item.address.toNat = a.origin.toNat + k ∧ a.origin.toNat + k < MEMORY_WORD_COUNT
  endFits : a.program.end_.isSome → a.origin.toNat + a.program.items.length < MEMORY_WORD_COUNT
  increasing : (a.program.items.map Item.line).Pairwise (· < ·)
  words : a.words.length = a.program.items.length
  itemLabel : ∀ item ∈ a.program.items, item.label.map Label.name = labelOn source item.line
  label : ∀ name symbol, a.symbols.get name = some symbol →
    (∃! p, p ∈ a.places ∧ labelOn source p.1 = some name) ∧
      (symbol.line, symbol.address) ∈ a.places ∧ labelOn source symbol.line = some name
  distinct : ∀ name other symbol symbol', a.symbols.get name = some symbol →
    a.symbols.get other = some symbol' → name ≠ other → symbol.address ≠ symbol'.address
  lineFor : ∀ address line, a.sourceMap.lineFor address = some line ↔ (line, address) ∈ a.places
  addressFor : ∀ line address,
    a.sourceMap.addressFor line = some address ↔ (line, address) ∈ a.places
  monotone : ∀ p ∈ a.places, ∀ q ∈ a.places, p.1 < q.1 ↔ p.2.toNat < q.2.toNat
  thereAndBack : ∀ address line, a.sourceMap.lineFor address = some line →
    a.sourceMap.addressFor line = some address
  backAndThere : ∀ line address, a.sourceMap.addressFor line = some address →
    a.sourceMap.lineFor address = some line

theorem statements_places {source : Str} {a : Assembly} {sk : Sketch} {number : Nat}
    (h : Outlines source a sk) (hlaid : Sketch.Laid (shapes source) number sk) :
    a.places = sk.statements.map fun p => (p.line, p.address) := by
  have hitems : a.program.items.map (fun item => (item.line, item.address)) =
      sk.items.map fun p => (p.line, p.address) := by
    rw [← h.items, List.map_map]
    rfl
  have hlength : a.program.items.length = sk.items.length := by rw [← h.items, List.length_map]
  rw [Assembly.places, Sketch.statements, List.map_append, hitems]
  congr 1
  have hended := h.ended
  cases hend : a.program.end_ with
  | none =>
    rw [hend] at hended
    rw [Option.map_eq_none_iff.mp hended.symm]
    rfl
  | some e =>
    rw [hend] at hended
    obtain ⟨p, hp, hline⟩ := Option.map_eq_some_iff.mp hended.symm
    have haddress := hlaid.address sk.items.length p (by simp [Sketch.statements, hp])
    rw [hp, h.origin, hlength, ← haddress]
    simp [hline]

theorem Sketch.Laid.ordered {shapes : List Shape} {number : Nat} {sk : Sketch}
    (h : Sketch.Laid shapes number sk) {p q : Placed} (hp : p ∈ sk.statements)
    (hq : q ∈ sk.statements) : p.line < q.line ↔ p.address.toNat < q.address.toNat := by
  obtain ⟨i, hi, rfl⟩ := List.mem_iff_getElem.mp hp
  obtain ⟨j, hj, rfl⟩ := List.mem_iff_getElem.mp hq
  have hai := h.address i _ (List.getElem?_eq_getElem hi)
  have haj := h.address j _ (List.getElem?_eq_getElem hj)
  have hpairwise := List.pairwise_iff_getElem.mp h.increasing
  rcases lt_trichotomy i j with hij | rfl | hij
  · have := hpairwise i j hi hj hij
    omega
  · omega
  · have := hpairwise j i hj hi hij
    omega

theorem Sketch.Laid.unique {shapes : List Shape} {number : Nat} {sk : Sketch}
    (h : Sketch.Laid shapes number sk) {p q : Placed} (hp : p ∈ sk.statements)
    (hq : q ∈ sk.statements) (haddress : p.address = q.address) : p = q := by
  obtain ⟨i, hi, rfl⟩ := List.mem_iff_getElem.mp hp
  obtain ⟨j, hj, rfl⟩ := List.mem_iff_getElem.mp hq
  have hai := h.address i _ (List.getElem?_eq_getElem hi)
  have haj := h.address j _ (List.getElem?_eq_getElem hj)
  rw [haddress] at hai
  have hij : i = j := by omega
  subst hij
  rfl

theorem Sketch.Laid.statementOn {source : Str} {number : Nat} {sk : Sketch}
    (h : Sketch.Laid (shapes source) number sk) {p : Placed} (hp : p ∈ sk.statements) :
    statementOn source p.line = some p.statement := by
  rw [Asm.statementOn, (h.line p hp).2]

/-- A label stands on one statement only, since the table knows one place for it. -/
theorem Sketch.Laid.labelled {shapes : List Shape} {number : Nat} {sk : Sketch}
    (h : Sketch.Laid shapes number sk) {p q : Placed} (hp : p ∈ sk.statements)
    (hq : q ∈ sk.statements) {name : Str} (hpname : p.statement.label = some name)
    (hqname : q.statement.label = some name) : p = q := by
  have hplabel := (h.labels name p.address p.line).mpr ⟨p, hp, hpname, rfl, rfl⟩
  have hqlabel := (h.labels name q.address q.line).mpr ⟨q, hq, hqname, rfl, rfl⟩
  rw [hplabel, Option.some.injEq, Prod.mk.injEq] at hqlabel
  exact h.unique hp hq hqlabel.1

section

variable {source : Str} {a : Assembly} {sk : Sketch} {number : Nat}

theorem mem_places (h : Outlines source a sk) (hlaid : Sketch.Laid (shapes source) number sk)
    (line : Nat) (address : MemoryAddress) : (line, address) ∈ a.places ↔
      ∃ p ∈ sk.statements, p.address = address ∧ p.line = line := by
  rw [statements_places h hlaid, List.mem_map]
  exact exists_congr fun p => and_congr_right fun _ => by rw [Prod.mk.injEq, and_comm]

theorem lineFor_iff (h : Outlines source a sk) (hlaid : Sketch.Laid (shapes source) number sk)
    (address : MemoryAddress) (line : Nat) :
    a.sourceMap.lineFor address = some line ↔ (line, address) ∈ a.places := by
  rw [h.lineFor, hlaid.lineFor, mem_places h hlaid]

theorem addressFor_iff (h : Outlines source a sk) (hlaid : Sketch.Laid (shapes source) number sk)
    (line : Nat) (address : MemoryAddress) :
    a.sourceMap.addressFor line = some address ↔ (line, address) ∈ a.places := by
  rw [h.addressFor, hlaid.addressFor, mem_places h hlaid]

theorem mem_statements (h : Outlines source a sk) {item : Item}
    (hitem : item ∈ a.program.items) : placedOf item ∈ sk.statements := by
  rw [Sketch.statements, ← h.items]
  exact List.mem_append_left _ (List.mem_map_of_mem hitem)

theorem item_address (h : Outlines source a sk) (hlaid : Sketch.Laid (shapes source) number sk)
    {k : Nat} {item : Item} (hitem : a.program.items[k]? = some item) :
    item.address.toNat = a.origin.toNat + k := by
  have hk : sk.statements[k]? = some (placedOf item) := by
    have hlt : k < (a.program.items.map placedOf).length := by
      simpa using (List.getElem?_eq_some_iff.mp hitem).1
    rw [Sketch.statements, ← h.items, List.getElem?_append_left hlt, List.getElem?_map, hitem,
      Option.map_some]
  rw [h.origin]
  exact hlaid.address k _ hk

theorem end_fits (h : Outlines source a sk) (hlaid : Sketch.Laid (shapes source) number sk)
    (hend : a.program.end_.isSome) :
    a.origin.toNat + a.program.items.length < MEMORY_WORD_COUNT := by
  have hended : sk.ended.isSome := by
    rw [← Option.isSome_map, ← h.ended, Option.isSome_map]
    exact hend
  obtain ⟨p, hp⟩ := Option.isSome_iff_exists.mp hended
  have hlength : a.program.items.length = sk.items.length := by rw [← h.items, List.length_map]
  have haddress := hlaid.address sk.items.length p (by simp [Sketch.statements, hp])
  rw [h.origin, hlength, ← haddress]
  exact p.address.isLt

/-- Every item has its word. -/
theorem words_length (source : Str) :
    (assemble source).words.length = (assemble source).program.items.length := by
  have houtlines := assemble_outlines source
  rw [houtlines.words, Sketch.words, List.length_map, ← houtlines.items, List.length_map]

theorem item_lines (h : Outlines source a sk) (hlaid : Sketch.Laid (shapes source) number sk) :
    (a.program.items.map Item.line).Pairwise (· < ·) := by
  have hitems : sk.items.Pairwise fun p q => p.line < q.line :=
    hlaid.increasing.sublist (List.sublist_append_left _ _)
  rw [← h.items, List.pairwise_map] at hitems
  exact List.pairwise_map.mpr hitems

theorem item_label (h : Outlines source a sk) (hlaid : Sketch.Laid (shapes source) number sk)
    {item : Item} (hitem : item ∈ a.program.items) :
    item.label.map Label.name = labelOn source item.line := by
  have hon : statementOn source item.line = some (placedOf item).statement :=
    hlaid.statementOn (mem_statements h hitem)
  rw [labelOn, hon]
  rfl

theorem symbol_statement (h : Outlines source a sk)
    (hlaid : Sketch.Laid (shapes source) number sk) {name : Str} {symbol : Symbol}
    (hsymbol : a.symbols.get name = some symbol) :
    ∃ p ∈ sk.statements, p.statement.label = some name ∧ p.address = symbol.address ∧
      p.line = symbol.line := by
  refine (hlaid.labels name symbol.address symbol.line).mp ?_
  rw [← h.labels, hsymbol, Option.map_some]

theorem symbol_place (h : Outlines source a sk) (hlaid : Sketch.Laid (shapes source) number sk)
    {name : Str} {symbol : Symbol} (hsymbol : a.symbols.get name = some symbol) :
    (∃! p, p ∈ a.places ∧ labelOn source p.1 = some name) ∧
      (symbol.line, symbol.address) ∈ a.places ∧ labelOn source symbol.line = some name := by
  obtain ⟨p, hp, hname, haddress, hline⟩ := symbol_statement h hlaid hsymbol
  have hmem : (symbol.line, symbol.address) ∈ a.places :=
    (mem_places h hlaid _ _).mpr ⟨p, hp, haddress, hline⟩
  have hlabel : labelOn source symbol.line = some name := by
    rw [labelOn, ← hline, hlaid.statementOn hp, Option.bind_some, hname]
  refine ⟨⟨(symbol.line, symbol.address), ⟨hmem, hlabel⟩, ?_⟩, hmem, hlabel⟩
  rintro ⟨line, address⟩ ⟨hother, hotherLabel⟩
  obtain ⟨q, hq, rfl, rfl⟩ := (mem_places h hlaid _ _).mp hother
  rw [labelOn, hlaid.statementOn hq, Option.bind_some] at hotherLabel
  rw [← hlaid.labelled hp hq hname hotherLabel, haddress, hline]

theorem symbol_distinct (h : Outlines source a sk)
    (hlaid : Sketch.Laid (shapes source) number sk) {name other : Str} {symbol symbol' : Symbol}
    (hsymbol : a.symbols.get name = some symbol) (hsymbol' : a.symbols.get other = some symbol')
    (hne : name ≠ other) : symbol.address ≠ symbol'.address := by
  obtain ⟨p, hp, hname, haddress, -⟩ := symbol_statement h hlaid hsymbol
  obtain ⟨q, hq, hother, haddress', -⟩ := symbol_statement h hlaid hsymbol'
  intro heq
  have hpq := hlaid.unique hp hq (by rw [haddress, haddress', heq])
  rw [hpq, hother, Option.some.injEq] at hname
  exact hne hname.symm

theorem places_monotone (h : Outlines source a sk)
    (hlaid : Sketch.Laid (shapes source) number sk) {p q : Nat × MemoryAddress}
    (hp : p ∈ a.places) (hq : q ∈ a.places) : p.1 < q.1 ↔ p.2.toNat < q.2.toNat := by
  obtain ⟨p, hp, hpa, hpl⟩ := (mem_places h hlaid _ _).mp hp
  obtain ⟨q, hq, hqa, hql⟩ := (mem_places h hlaid _ _).mp hq
  rw [← hpa, ← hpl, ← hqa, ← hql]
  exact hlaid.ordered hp hq

end

/-- Every label, line and address of an assembly, for every source. -/
theorem assemble_laidOut (source : Str) : LaidOut source (assemble source) :=
  have h := assemble_outlines source
  have hlaid := sketchOf_laid source
  { address := fun _ item hitem =>
      have haddress := item_address h hlaid hitem
      ⟨haddress, haddress ▸ item.address.isLt⟩
    endFits := end_fits h hlaid
    increasing := item_lines h hlaid
    words := words_length source
    itemLabel := fun _ => item_label h hlaid
    label := fun _ _ => symbol_place h hlaid
    distinct := fun _ _ _ _ => symbol_distinct h hlaid
    lineFor := lineFor_iff h hlaid
    addressFor := addressFor_iff h hlaid
    monotone := fun _ hp _ hq => places_monotone h hlaid hp hq
    thereAndBack := fun address line hline =>
      (addressFor_iff h hlaid line address).mpr ((lineFor_iff h hlaid address line).mp hline)
    backAndThere := fun line address hline =>
      (lineFor_iff h hlaid address line).mpr ((addressFor_iff h hlaid line address).mp hline) }

end MarieRs.Asm
