import MarieRs.Asm.Layout
import MarieRs.Asm.Spans

namespace MarieRs.Asm

/-- A label where it is defined, or where it is used. -/
structure Occurrence where
  symbol : Symbol
  role : Role
  span : Span
  deriving DecidableEq

def Symbol.occurrences (symbol : Symbol) : List Occurrence :=
  ⟨symbol, .definition, symbol.definition⟩ ::
    symbol.references.map fun span => ⟨symbol, .reference, span⟩

def SymbolTable.occurrences (table : SymbolTable) : List Occurrence :=
  table.iter.flatMap Symbol.occurrences

/-- There is at least a byte between two spans. -/
def Separated (span span' : Span) : Prop := span.stop < span'.start ∨ span'.stop < span.start

theorem Separated.symm {span span' : Span} (h : Separated span span') : Separated span' span :=
  Or.symm h

/-- No offset touches both. -/
theorem Separated.not_both {span span' : Span} (h : Separated span span') {offset : Nat}
    (htouches : span.touches offset = true) : span'.touches offset = false := by
  simp only [Span.touches, ge_iff_le, Bool.and_eq_true, decide_eq_true_eq, Bool.and_eq_false_iff,
    decide_eq_false_iff_not] at htouches ⊢
  rcases h with h | h
  · exact .inl (by omega)
  · exact .inr (by omega)

variable {source : Str}

/-- A newline is between spans of different lines. -/
theorem On.before {line line' : Nat} {span span' : Span} (h : On source line span)
    (h' : On source line' span') (hlt : line < line') : span.stop < span'.start := by
  obtain ⟨base, before, piece, after, hspan⟩ := h
  obtain ⟨base', before', piece', after', hspan'⟩ := h'
  have hlines := hspan.line.before hspan'.line hlt
  rw [hspan.span, hspan'.span]
  simp only [utf8Len_append] at hlines ⊢
  omega

theorem On.separated {line line' : Nat} {span span' : Span} (h : On source line span)
    (h' : On source line' span') (hne : line ≠ line') : Separated span span' := by
  rcases Nat.lt_or_gt_of_ne hne with hlt | hgt
  · exact .inl (h.before h' hlt)
  · exact .inr (h'.before h hgt)

/-- A line is one statement. -/
theorem StatementOn.same {line : Nat} {label label' : Option Span} {mnemonic mnemonic' : Span}
    {operand operand' comment comment' : Option Span}
    (h : StatementOn source line label mnemonic operand comment)
    (h' : StatementOn source line label' mnemonic' operand' comment') :
    label = label' ∧ mnemonic = mnemonic' ∧ operand = operand' := by
  obtain ⟨text, base, hline, hform⟩ := h
  obtain ⟨text', base', hline', hform'⟩ := h'
  obtain ⟨rfl, rfl⟩ := hline.same hline'
  rw [hform] at hform'
  cases hform'
  exact ⟨rfl, rfl, rfl⟩

theorem mem_iter {table : SymbolTable} {symbol : Symbol} (h : symbol ∈ table.iter) :
    ∃ name, (name, symbol) ∈ table.symbols.toList ∧ table.get name = some symbol := by
  obtain ⟨⟨name, found⟩, hmem, rfl⟩ := List.mem_map.mp h
  exact ⟨name, hmem, Std.TreeMap.mem_toList_iff_getElem?_eq_some.mp hmem⟩

section Views

variable {β : Type} {f : Symbol → β}

theorem mem_symbols_map (table : SymbolTable) (p : Str × β) :
    p ∈ table.symbols.toList.map (fun q => (q.1, f q.2)) ↔ (table.get p.1).map f = some p.2 := by
  rw [List.mem_map, Option.map_eq_some_iff]
  constructor
  · rintro ⟨q, hq, rfl⟩
    exact ⟨q.2, Std.TreeMap.mem_toList_iff_getElem?_eq_some.mp hq, rfl⟩
  · rintro ⟨symbol, hsymbol, hf⟩
    exact ⟨(p.1, symbol), Std.TreeMap.mem_toList_iff_getElem?_eq_some.mpr hsymbol, by rw [hf]⟩

theorem symbols_map_ordered (table : SymbolTable) :
    (table.symbols.toList.map fun q => (q.1, f q.2)).Pairwise fun p q => compare p.1 q.1 = .lt :=
  List.pairwise_map.mpr Std.TreeMap.ordered_keys_toList

theorem symbols_map_nodup (table : SymbolTable) :
    (table.symbols.toList.map fun q => (q.1, f q.2)).Nodup := by
  refine (symbols_map_ordered table).imp fun hlt heq => ?_
  subst heq
  simp at hlt

/-- Tables with the same to see under every name have the same to see in the order of the names. -/
theorem iter_map {table table' : SymbolTable}
    (h : ∀ name, (table'.get name).map f = (table.get name).map f) :
    table'.iter.map f = table.iter.map f := by
  have hlist : ∀ t : SymbolTable, t.iter.map f =
      (t.symbols.toList.map fun q => (q.1, f q.2)).map Prod.snd := by
    intro t
    rw [SymbolTable.iter, List.map_map, List.map_map]
    rfl
  rw [hlist, hlist]
  congr 1
  refine List.Perm.eq_of_pairwise (fun p q _ _ hlt hgt => ?_) (symbols_map_ordered table')
    (symbols_map_ordered table) ?_
  · rw [Std.OrientedCmp.gt_of_lt hlt] at hgt
    cases hgt
  · rw [List.perm_ext_iff_of_nodup (symbols_map_nodup table') (symbols_map_nodup table)]
    intro p
    rw [mem_symbols_map, mem_symbols_map, h]

end Views

theorem mem_uses {item : Item} {name : Str} {span : Span} (h : span ∈ uses item name) :
    ∃ operand, item.operand = some operand ∧ operand.text = name ∧ operand.span = span := by
  rw [uses] at h
  cases hkind : operandOpcode item.mnemonic.kind with
  | none =>
    rw [hkind] at h
    cases h
  | some opcode =>
    rw [hkind] at h
    cases hoperand : item.operand with
    | none =>
      rw [hoperand] at h
      cases h
    | some operand =>
      simp only [hoperand, operandUses] at h
      split at h
      · rename_i huses
        exact ⟨operand, rfl, huses.2.2, (List.mem_singleton.mp h).symm⟩
      · cases h

theorem uses_pairwise (item : Item) (name : Str) (R : Span → Span → Prop) :
    (uses item name).Pairwise R := by
  rw [uses]
  cases operandOpcode item.mnemonic.kind with
  | none => exact .nil
  | some opcode =>
    simp only [operandUses]
    split
    · exact .nil
    · split
      · exact List.pairwise_singleton R _
      · exact .nil

section Assembly
variable (source)

/-- Every item comes before the next, with a newline in between. -/
theorem items_before : (assemble source).program.items.Pairwise fun item item' =>
    ∀ span span', On source item.line span → On source item'.line span' →
      span.stop < span'.start := by
  have hlines := item_lines (assemble_outlines source) (sketchOf_laid source)
  refine (List.pairwise_map.mp hlines).imp ?_
  intro item item' hlt span span' hspan hspan'
  exact hspan.before hspan' hlt

theorem item_line {item item' : Item} (h : item ∈ (assemble source).program.items)
    (h' : item' ∈ (assemble source).program.items) (hline : item.line = item'.line) :
    item = item' := by
  have hnodup : ((assemble source).program.items.map Item.line).Nodup :=
    (item_lines (assemble_outlines source) (sketchOf_laid source)).imp Nat.ne_of_lt
  exact List.inj_on_of_nodup_map hnodup h h' hline

/-- A label is used by the items whose operand names it. -/
theorem references_uses {name : Str} {symbol : Symbol}
    (h : (assemble source).symbols.get name = some symbol) :
    symbol.references = (assemble source).program.items.flatMap (uses · name) := by
  obtain ⟨read, -, rfl⟩ := (assemble_outlines source).readSymbols name symbol h
  rfl

variable {source}

/-- An occurrence is the label of a line, or the operand of an item. -/
theorem occurrence_cases {name : Str} {symbol : Symbol} {o : Occurrence}
    (h : (assemble source).symbols.get name = some symbol) (ho : o ∈ symbol.occurrences) :
    (o.span = symbol.definition ∧ ∃ mnemonic operand comment,
        StatementOn source symbol.line (some symbol.definition) mnemonic operand comment) ∨
      ∃ item ∈ (assemble source).program.items, ∃ operand, item.operand = some operand ∧
        operand.text = name ∧ operand.span = o.span := by
  rcases List.mem_cons.mp ho with rfl | ho
  · exact .inl ⟨rfl, ((assemble_traced source).symbols name symbol h).2.2⟩
  · obtain ⟨span, hspan, rfl⟩ := List.mem_map.mp ho
    rw [references_uses source h] at hspan
    obtain ⟨item, hitem, huses⟩ := List.mem_flatMap.mp hspan
    obtain ⟨operand, hoperand, hname, hspan⟩ := mem_uses huses
    exact .inr ⟨item, hitem, operand, hoperand, hname, hspan⟩

/-- A label is not next to an operand. -/
theorem definition_separated {line : Nat} {definition mnemonic : Span}
    {operand comment : Option Span} {item : Item}
    (h : StatementOn source line (some definition) mnemonic operand comment)
    (hitem : item ∈ (assemble source).program.items) {used : Operand}
    (hused : item.operand = some used) : Separated definition used.span := by
  have hkept := (assemble_traced source).items item hitem
  by_cases hline : line = item.line
  · subst hline
    have hstatement := hkept.statement
    obtain ⟨-, hmnemonic, -⟩ := h.same hstatement
    rw [hused] at hstatement
    have hbefore := h.order.1 definition rfl
    obtain ⟨-, hne, hafter⟩ := hstatement.order
    have hoperand := hafter used.span rfl
    rw [hmnemonic] at hbefore
    exact .inl (by omega)
  · exact (h.on_label definition rfl).separated (hkept.on_operand hused) hline

/-- Two labels appear in different places. -/
theorem symbols_separated {name name' : Str} {symbol symbol' : Symbol} {o o' : Occurrence}
    (h : (assemble source).symbols.get name = some symbol)
    (h' : (assemble source).symbols.get name' = some symbol') (hne : name ≠ name')
    (ho : o ∈ symbol.occurrences) (ho' : o' ∈ symbol'.occurrences) : Separated o.span o'.span := by
  have htraced := assemble_traced source
  rcases occurrence_cases h ho with
    ⟨hspan, mnemonic, operand, comment, hstatement⟩ | ⟨item, hitem, used, hused, hname, hspan⟩
  · rcases occurrence_cases h' ho' with
      ⟨hspan', mnemonic', operand', comment', hstatement'⟩ |
      ⟨item', hitem', used', hused', -, hspan'⟩
    · rw [hspan, hspan']
      refine (hstatement.on_label _ rfl).separated (hstatement'.on_label _ rfl) fun hline => ?_
      rw [hline] at hstatement
      have hdefinition := Option.some.inj (hstatement.same hstatement').1
      apply hne
      rw [← (htraced.symbols name symbol h).2.1, hdefinition,
        (htraced.symbols name' symbol' h').2.1]
    · rw [hspan, ← hspan']
      exact definition_separated hstatement hitem' hused'
  · rcases occurrence_cases h' ho' with
      ⟨hspan', mnemonic', operand', comment', hstatement'⟩ |
      ⟨item', hitem', used', hused', hname', hspan'⟩
    · rw [hspan', ← hspan]
      exact (definition_separated hstatement' hitem hused).symm
    · rw [← hspan, ← hspan']
      refine ((htraced.items item hitem).on_operand hused).separated
        ((htraced.items item' hitem').on_operand hused') fun hline => hne ?_
      rw [item_line source hitem hitem' hline, hused'] at hused
      rw [← hname, ← hname', Option.some.inj hused]

/-- The references of a label come in the order of the source. -/
theorem references_ordered {name : Str} {symbol : Symbol}
    (h : (assemble source).symbols.get name = some symbol) :
    symbol.references.Pairwise fun span span' => span.stop < span'.start := by
  have htraced := assemble_traced source
  rw [references_uses source h, List.pairwise_flatMap]
  refine ⟨fun item _ => uses_pairwise item name _, ?_⟩
  refine (items_before source).imp_of_mem ?_
  intro item item' hitem hitem' hbefore span hspan span' hspan'
  obtain ⟨operand, hoperand, -, rfl⟩ := mem_uses hspan
  obtain ⟨operand', hoperand', -, rfl⟩ := mem_uses hspan'
  exact hbefore _ _ ((htraced.items item hitem).on_operand hoperand)
    ((htraced.items item' hitem').on_operand hoperand')

theorem occurrences_separated (source : Str) :
    (assemble source).symbols.occurrences.Pairwise fun o o' => Separated o.span o'.span := by
  rw [SymbolTable.occurrences, List.pairwise_flatMap]
  constructor
  · intro symbol hsymbol
    obtain ⟨name, -, hget⟩ := mem_iter hsymbol
    obtain ⟨-, -, mnemonic, operand, comment, hstatement⟩ :=
      (assemble_traced source).symbols name symbol hget
    refine List.pairwise_cons.mpr ⟨?_, ?_⟩
    · intro o ho
      obtain ⟨span, hspan, rfl⟩ := List.mem_map.mp ho
      rw [references_uses source hget] at hspan
      obtain ⟨item, hitem, huses⟩ := List.mem_flatMap.mp hspan
      obtain ⟨used, hused, -, rfl⟩ := mem_uses huses
      exact definition_separated hstatement hitem hused
    · exact List.pairwise_map.mpr ((references_ordered hget).imp fun hlt => .inl hlt)
  · rw [SymbolTable.iter, List.pairwise_map]
    refine Std.TreeMap.distinct_keys_toList.imp_of_mem ?_
    intro p p' hp hp' hne o ho o' ho'
    have hget := Std.TreeMap.mem_toList_iff_getElem?_eq_some.mp hp
    have hget' := Std.TreeMap.mem_toList_iff_getElem?_eq_some.mp hp'
    refine symbols_separated hget hget' (fun heq => hne ?_) ho ho'
    rw [heq]
    exact Std.ReflCmp.compare_self

/-- At most one of separate spans can be touched. -/
theorem touched_unique {α : Type} {f : α → Span} {l : List α}
    (h : l.Pairwise fun a b => Separated (f a) (f b)) {a b : α} (ha : a ∈ l) (hb : b ∈ l)
    {offset : Nat} (htouches : (f a).touches offset = true)
    (htouches' : (f b).touches offset = true) : a = b := by
  induction h with
  | nil => cases ha
  | @cons first rest hfirst _ ih =>
    have hnot : ∀ c ∈ rest, (f first).touches offset = true → (f c).touches offset = false :=
      fun c hc => (hfirst c hc).not_both
    rcases List.mem_cons.mp ha with rfl | harest
    · rcases List.mem_cons.mp hb with rfl | hbrest
      · rfl
      · rw [hnot b hbrest htouches] at htouches'
        cases htouches'
    · rcases List.mem_cons.mp hb with rfl | hbrest
      · rw [hnot a harest htouches'] at htouches
        cases htouches
      · exact ih harest hbrest

theorem find?_unique {α : Type} {p : α → Bool} {l : List α}
    (h : ∀ a ∈ l, ∀ b ∈ l, p a = true → p b = true → a = b) (a : α) :
    l.find? p = some a ↔ a ∈ l ∧ p a = true := by
  constructor
  · intro hfind
    exact ⟨List.mem_of_find?_eq_some hfind, List.find?_some hfind⟩
  · rintro ⟨ha, hp⟩
    cases hfind : l.find? p with
    | none => exact absurd hp (List.find?_eq_none.mp hfind a ha)
    | some b =>
      rw [h a ha b (List.mem_of_find?_eq_some hfind) hp (List.find?_some hfind)]

/-- What `findAt` finds is an occurrence. -/
theorem findAt_occurrence {table : SymbolTable} {offset : Nat} {symbol : Symbol} {role : Role}
    (h : table.findAt offset = some (symbol, role)) :
    ∃ o ∈ table.occurrences, o.symbol = symbol ∧ o.role = role ∧ o.span.touches offset = true := by
  obtain ⟨⟨name, found⟩, hmem, hfound⟩ := List.exists_of_findSome?_eq_some h
  have hiter : found ∈ table.iter := List.mem_map.mpr ⟨(name, found), hmem, rfl⟩
  simp only at hfound
  split at hfound
  · rename_i htouches
    cases hfound
    exact ⟨⟨symbol, .definition, symbol.definition⟩,
      List.mem_flatMap.mpr ⟨symbol, hiter, List.mem_cons_self⟩, rfl, rfl, htouches⟩
  · split at hfound
    · rename_i htouches
      cases hfound
      obtain ⟨span, hspan, htouches⟩ := List.any_eq_true.mp htouches
      exact ⟨⟨symbol, .reference, span⟩, List.mem_flatMap.mpr
        ⟨symbol, hiter, List.mem_cons_of_mem _ (List.mem_map_of_mem hspan)⟩, rfl, rfl, htouches⟩
    · cases hfound

/-- Where there is an occurrence, something is found. -/
theorem findAt_isSome {table : SymbolTable} {offset : Nat} {o : Occurrence}
    (ho : o ∈ table.occurrences) (htouches : o.span.touches offset = true) :
    ∃ found, table.findAt offset = some found := by
  refine Option.isSome_iff_exists.mp (Option.isSome_iff_ne_none.mpr fun hnone => ?_)
  obtain ⟨symbol, hsymbol, ho⟩ := List.mem_flatMap.mp ho
  obtain ⟨name, hmem, -⟩ := mem_iter hsymbol
  have hmiss := List.findSome?_eq_none_iff.mp hnone (name, symbol) hmem
  simp only at hmiss
  split at hmiss
  · cases hmiss
  · rename_i hdefinition
    split at hmiss
    · cases hmiss
    · rename_i hreferences
      rcases List.mem_cons.mp ho with rfl | ho
      · exact hdefinition htouches
      · obtain ⟨span, hspan, rfl⟩ := List.mem_map.mp ho
        exact hreferences (List.any_eq_true.mpr ⟨span, hspan, htouches⟩)

theorem Usable.text_eq {span : Span} (h : Usable source span) :
    span.text source = some (textOf source span) := by
  obtain ⟨s, hs⟩ := h.text
  rw [textOf, hs, Option.getD_some]

/-- Every occurrence of a label spells its name. -/
theorem occurrence_text {name : Str} {symbol : Symbol} {o : Occurrence}
    (h : (assemble source).symbols.get name = some symbol) (ho : o ∈ symbol.occurrences) :
    o.span.text source = some symbol.name := by
  have htraced := assemble_traced source
  obtain ⟨hname, htext, -⟩ := htraced.symbols name symbol h
  rw [hname]
  rcases occurrence_cases h ho with
    ⟨hspan, mnemonic, operand, comment, hstatement⟩ | ⟨item, hitem, used, hused, hused', hspan⟩
  · rw [hspan, (hstatement.on_label _ rfl).usable.text_eq, htext]
  · have hkept := htraced.items item hitem
    rw [← hspan, (hkept.on_operand hused).usable.text_eq, ← hkept.operand used hused, hused']

end Assembly

/-- The word of an item and its line are there. -/
theorem item_shown {item : Item} {i : Nat}
    (hitem : (assemble source).program.items[i]? = some item) :
    ∃ word line base, (assemble source).words[i]? = some word ∧
      item.address.toNat = (assemble source).origin.toNat + i ∧
      AtLine source line item.line base := by
  have hlt : i < (assemble source).words.length := by
    rw [words_length]
    exact (List.getElem?_eq_some_iff.mp hitem).1
  have hkept := (assemble_traced source).items item (List.mem_of_getElem? hitem)
  obtain ⟨line, base, hat, -⟩ := hkept.statement
  exact ⟨_, line, base, List.getElem?_eq_getElem hlt,
    item_address (assemble_outlines source) (sketchOf_laid source) hitem, hat⟩

/-- The index of labels is exact. -/
structure Indexed (source : Str) (a : Assembly) : Prop where
  /-- The references of a label are the operands that are looked up under its name. -/
  references : ∀ name symbol, a.symbols.get name = some symbol →
    symbol.references = a.program.items.flatMap (uses · name) ∧
      symbol.references.Pairwise fun span span' => span.stop < span'.start
  separated : a.symbols.occurrences.Pairwise fun o o' => Separated o.span o'.span
  /-- An offset touches at most one occurrence. -/
  single : ∀ offset, ∀ o ∈ a.symbols.occurrences, ∀ o' ∈ a.symbols.occurrences,
    o.span.touches offset = true → o'.span.touches offset = true → o = o'
  findAt : ∀ offset symbol role, a.symbols.findAt offset = some (symbol, role) ↔
    ∃ o ∈ a.symbols.occurrences, o.symbol = symbol ∧ o.role = role ∧
      o.span.touches offset = true
  itemAt : ∀ offset item, a.program.itemAt offset = some item ↔
    item ∈ a.program.items ∧ item.span.touches offset = true
  oneItem : a.program.items.Pairwise fun item item' => Separated item.span item'.span
  renameSpans : ∀ offset symbol spans, a.symbols.renameSpans offset = some (symbol, spans) →
    spans = symbol.occurrences.map Occurrence.span ∧
      ∀ span ∈ spans, span.text source = some symbol.name

theorem items_separated (source : Str) :
    (assemble source).program.items.Pairwise fun item item' => Separated item.span item'.span := by
  have htraced := assemble_traced source
  refine (items_before source).imp_of_mem fun hitem hitem' hbefore => .inl ?_
  exact hbefore _ _ (htraced.items _ hitem).on_span (htraced.items _ hitem').on_span

theorem itemAt_iff (source : Str) (offset : Nat) (item : Item) :
    (assemble source).program.itemAt offset = some item ↔
      item ∈ (assemble source).program.items ∧ item.span.touches offset = true :=
  find?_unique (fun _ hitem _ hitem' => touched_unique (items_separated source) hitem hitem') item

theorem assemble_indexed (source : Str) : Indexed source (assemble source) := by
  have hseparated := occurrences_separated source
  have hsingle : ∀ offset, ∀ o ∈ (assemble source).symbols.occurrences,
      ∀ o' ∈ (assemble source).symbols.occurrences, o.span.touches offset = true →
        o'.span.touches offset = true → o = o' :=
    fun offset o ho o' ho' => touched_unique hseparated ho ho'
  refine ⟨fun name symbol h => ⟨references_uses source h, references_ordered h⟩, hseparated,
    hsingle, fun offset symbol role => ⟨findAt_occurrence, ?_⟩, itemAt_iff source,
    items_separated source, ?_⟩
  · rintro ⟨o, ho, rfl, rfl, htouches⟩
    obtain ⟨⟨symbol, role⟩, hfound⟩ := findAt_isSome ho htouches
    obtain ⟨o', ho', rfl, rfl, htouches'⟩ := findAt_occurrence hfound
    rw [hfound, hsingle offset o ho o' ho' htouches htouches']
  · intro offset symbol spans hrename
    obtain ⟨⟨found, role⟩, hfound, heq⟩ := Option.map_eq_some_iff.mp hrename
    cases heq
    obtain ⟨o, ho, rfl, -, -⟩ := findAt_occurrence hfound
    obtain ⟨symbol, hsymbol, ho⟩ := List.mem_flatMap.mp ho
    have hspans : symbol.definition :: symbol.references =
        symbol.occurrences.map Occurrence.span := by
      rw [Symbol.occurrences, List.map_cons, List.map_map]
      simp [Function.comp_def]
    have hself : o.symbol = symbol := by
      rcases List.mem_cons.mp ho with rfl | ho
      · rfl
      · obtain ⟨span, -, rfl⟩ := List.mem_map.mp ho
        rfl
    rw [hself]
    refine ⟨hspans, fun span hspan => ?_⟩
    obtain ⟨name, -, hget⟩ := mem_iter hsymbol
    rw [hspans] at hspan
    obtain ⟨o', ho', rfl⟩ := List.mem_map.mp hspan
    exact occurrence_text hget ho'

end MarieRs.Asm
