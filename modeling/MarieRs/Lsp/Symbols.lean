import MarieRs.Lsp.Queries

namespace MarieRs.Lsp

open Asm (Item Label MnemonicKind On Span StatementOn Symbol codeSpan textOf)

inductive SymbolKind where
  | FUNCTION | VARIABLE
  deriving DecidableEq, Repr

/-- An entry of the outline. -/
structure DocumentSymbol where
  name : Str
  detail : Option String
  kind : SymbolKind
  range : Range
  selectionRange : Range
  deriving DecidableEq

/-- A label on a data word is a variable; one on an instruction names code. -/
def symbolKind : Option MnemonicKind → SymbolKind
  | some (.directive .dec) | some (.directive .oct) | some (.directive .hex)
  | some (.directive .adr) => .VARIABLE
  | _ => .FUNCTION

def documentSymbol (document : Document) (encoding : PositionEncoding) (symbol : Symbol) :
    DocumentSymbol :=
  let positions := document.positions encoding
  let item := document.assembly.program.itemAtAddress symbol.address
  { name := symbol.name
    detail := item.map fun item =>
      symbol.address.display ++ " — " ++ String.ofList (trim (textOf document.text item.span))
    kind := symbolKind (item.map fun item => item.mnemonic.kind)
    range := positions.range
      ((item.map fun item => symbol.definition.join item.span).getD symbol.definition)
    selectionRange := positions.range symbol.definition }

/-- The labels by address. -/
def byAddress (document : Document) : List Symbol :=
  document.assembly.symbols.iter.mergeSort fun symbol symbol' => symbol.address ≤ symbol'.address

/-- Every label, ordered by address so the outline follows the program. -/
def documentSymbols (document : Document) (encoding : PositionEncoding) : List DocumentSymbol :=
  (byAddress document).map (documentSymbol document encoding)

section Laid
variable {text name : Str} {symbol : Symbol}

/-- A word is at the address of a label exactly if the label is on its line. -/
theorem address_iff_label (hget : (Asm.assemble text).symbols.get name = some symbol)
    {item : Item} (hitem : item ∈ (Asm.assemble text).program.items) :
    item.address = symbol.address ↔ item.label.map Label.name = some name := by
  have houtlines := Asm.assemble_outlines text
  have hlaid := Asm.sketchOf_laid text
  obtain ⟨⟨place, -, hunique⟩, hplace, hlabel⟩ := Asm.symbol_place houtlines hlaid hget
  have hmem : (item.line, item.address) ∈ (Asm.assemble text).places :=
    List.mem_append_left _ (List.mem_map_of_mem hitem)
  rw [Asm.item_label houtlines hlaid hitem]
  constructor
  · intro haddress
    have hlt := Asm.places_monotone houtlines hlaid hmem hplace
    have hgt := Asm.places_monotone houtlines hlaid hplace hmem
    simp only [haddress, lt_irrefl, iff_false, not_lt] at hlt hgt
    rw [le_antisymm hgt hlt, hlabel]
  · intro hname
    have hsame := (hunique _ ⟨hmem, hname⟩).trans (hunique _ ⟨hplace, hlabel⟩).symm
    exact (Prod.mk.inj hsame).2

/-- The word at the address of a label is the one that the label is written in front of. -/
theorem itemAtAddress_label (hget : (Asm.assemble text).symbols.get name = some symbol)
    (item : Item) : (Asm.assemble text).program.itemAtAddress symbol.address = some item ↔
      item ∈ (Asm.assemble text).program.items ∧ item.label.map Label.name = some name := by
  have honly : ∀ a ∈ (Asm.assemble text).program.items, ∀ b ∈ (Asm.assemble text).program.items,
      (a.address == symbol.address) = true → (b.address == symbol.address) = true → a = b := by
    intro a ha b hb haddress haddress'
    obtain ⟨i, hi⟩ := List.mem_iff_getElem?.mp ha
    obtain ⟨j, hj⟩ := List.mem_iff_getElem?.mp hb
    have hai := Asm.item_address (Asm.assemble_outlines text) (Asm.sketchOf_laid text) hi
    have haj := Asm.item_address (Asm.assemble_outlines text) (Asm.sketchOf_laid text) hj
    rw [beq_iff_eq] at haddress haddress'
    rw [haddress] at hai
    rw [haddress'] at haj
    obtain rfl : i = j := by omega
    exact Option.some.inj (hi.symm.trans hj)
  rw [Asm.Program.itemAtAddress, Asm.find?_unique honly]
  refine and_congr_right fun hitem => ?_
  rw [beq_iff_eq]
  exact address_iff_label hget hitem

/-- The whole of a labelled statement is a piece of its line, and begins with the label. -/
theorem labelled_on (hget : (Asm.assemble text).symbols.get name = some symbol) {item : Item}
    (hitem : item ∈ (Asm.assemble text).program.items)
    (hlabel : item.label.map Label.name = some name) :
    On text symbol.line (symbol.definition.join item.span) ∧
      (symbol.definition.join item.span).start = symbol.definition.start ∧
      symbol.definition.stop ≤ (symbol.definition.join item.span).stop := by
  have htraced := Asm.assemble_traced text
  obtain ⟨-, -, mnemonic, operand, comment, hstatement⟩ := htraced.symbols name symbol hget
  have hkept := htraced.items item hitem
  have hline : item.line = symbol.line := by
    have houtlines := Asm.assemble_outlines text
    have hlaid := Asm.sketchOf_laid text
    obtain ⟨⟨place, -, hunique⟩, hplace, hlabel'⟩ := Asm.symbol_place houtlines hlaid hget
    have hmem : (item.line, item.address) ∈ (Asm.assemble text).places :=
      List.mem_append_left _ (List.mem_map_of_mem hitem)
    have hname := Asm.item_label houtlines hlaid hitem
    rw [hlabel] at hname
    have hsame := (hunique _ ⟨hmem, hname.symm⟩).trans (hunique _ ⟨hplace, hlabel'⟩).symm
    exact (Prod.mk.inj hsame).1
  have hkept' := hkept.statement
  rw [hline] at hkept'
  obtain ⟨-, hmnemonic, hoperand⟩ := hstatement.same hkept'
  obtain ⟨hbefore, hnonempty, hafter⟩ := hstatement.order
  have hcode : item.span = codeSpan mnemonic operand := by
    rw [hkept.span, hmnemonic, hoperand]
  have hstart : mnemonic.start ≤ (codeSpan mnemonic operand).start := by
    cases operand with
    | none => exact le_rfl
    | some span =>
      have hle := hafter span rfl
      exact le_min le_rfl (hnonempty.le.trans hle)
  have hle : symbol.definition.stop ≤ item.span.start := by
    have hlabelled := hbefore _ rfl
    rw [hcode]
    omega
  have hon := hstatement.on_label _ rfl
  refine ⟨hon.join (hcode ▸ hstatement.on_code) hle, ?_, le_max_left _ _⟩
  obtain ⟨before, piece, after, -, hspan⟩ := hon.usable
  refine min_eq_left (le_trans ?_ hle)
  rw [hspan]
  exact Nat.le_add_right _ _

end Laid

theorem labels_distinct (text : Str) :
    ((Asm.assemble text).symbols.iter.map Symbol.name).Nodup := by
  rw [Asm.SymbolTable.iter, List.map_map]
  refine List.pairwise_map.mpr (Std.TreeMap.distinct_keys_toList.imp_of_mem ?_)
  intro p p' hp hp' hne heq
  have hget := Std.TreeMap.mem_toList_iff_getElem?_eq_some.mp hp
  have hget' := Std.TreeMap.mem_toList_iff_getElem?_eq_some.mp hp'
  have htraced := Asm.assemble_traced text
  apply hne
  rw [← (htraced.symbols _ _ hget).1, ← (htraced.symbols _ _ hget').1]
  rw [show p.2.name = p'.2.name from heq]
  exact Std.ReflCmp.compare_self

theorem mem_byAddress {text : Str} {symbol : Symbol} :
    symbol ∈ byAddress (.new text) ↔
      (Asm.assemble text).symbols.get symbol.name = some symbol := by
  rw [byAddress, (List.mergeSort_perm _ _).mem_iff]
  constructor
  · intro hmem
    obtain ⟨name, -, hget⟩ := Asm.mem_iter hmem
    rw [((Asm.assemble_traced text).symbols name symbol hget).1]
    exact hget
  · intro hget
    exact List.mem_map.mpr
      ⟨(symbol.name, symbol), Std.TreeMap.mem_toList_iff_getElem?_eq_some.mpr hget, rfl⟩

theorem byAddress_names (text : Str) : ((byAddress (.new text)).map Symbol.name).Nodup :=
  ((List.mergeSort_perm _ _).map _).nodup_iff.mpr (labels_distinct text)

/-- The labels by address are the labels by line. -/
theorem byAddress_lines (text : Str) :
    (byAddress (.new text)).Pairwise fun symbol symbol' => symbol.line < symbol'.line := by
  have hsorted : (byAddress (.new text)).Pairwise fun symbol symbol' =>
      symbol.address ≤ symbol'.address :=
    List.pairwise_mergeSort' (fun symbol symbol' : Symbol => symbol.address ≤ symbol'.address) _
  have houtlines := Asm.assemble_outlines text
  have hlaid := Asm.sketchOf_laid text
  have hnames := List.pairwise_map.mp (byAddress_names text)
  refine (hsorted.and hnames).imp_of_mem fun {symbol symbol'} hmem hmem' ⟨hle, hne⟩ => ?_
  have hget := mem_byAddress.mp hmem
  have hget' := mem_byAddress.mp hmem'
  have hdistinct := Asm.symbol_distinct houtlines hlaid hget hget' hne
  have hplace := (Asm.symbol_place houtlines hlaid hget).2.1
  have hplace' := (Asm.symbol_place houtlines hlaid hget').2.1
  refine (Asm.places_monotone houtlines hlaid hplace hplace').mpr ?_
  exact lt_of_le_of_ne hle fun heq => hdistinct (BitVec.eq_of_toNat_eq heq)

theorem definition_occurs {text : Str} {symbol : Symbol}
    (hget : (Asm.assemble text).symbols.get symbol.name = some symbol) :
    ⟨symbol, .definition, symbol.definition⟩ ∈ (Asm.assemble text).symbols.occurrences := by
  have hiter : symbol ∈ (Asm.assemble text).symbols.iter :=
    (List.mergeSort_perm _ _).mem_iff.mp (mem_byAddress.mpr hget)
  exact List.mem_flatMap.mpr ⟨symbol, hiter, List.mem_cons_self⟩

/-- What the outline calls the whole of a label is a piece of its line. -/
theorem documentSymbol_on {text : Str} {symbol : Symbol}
    (hget : (Asm.assemble text).symbols.get symbol.name = some symbol)
    (encoding : PositionEncoding) :
    ∃ full, On text symbol.line full ∧ full.start = symbol.definition.start ∧
      symbol.definition.stop ≤ full.stop ∧
      (documentSymbol (.new text) encoding symbol).range =
        (positionsOf text encoding).range full := by
  cases hitem : (Asm.assemble text).program.itemAtAddress symbol.address with
  | none =>
    obtain ⟨-, -, mnemonic, operand, comment, hstatement⟩ :=
      (Asm.assemble_traced text).symbols _ symbol hget
    refine ⟨symbol.definition, hstatement.on_label _ rfl, rfl, le_rfl, ?_⟩
    change (positionsOf text encoding).range ((Option.map _
      ((Asm.assemble text).program.itemAtAddress symbol.address)).getD _) = _
    rw [hitem]
    rfl
  | some item =>
    obtain ⟨hmem, hlabel⟩ := (itemAtAddress_label hget item).mp hitem
    obtain ⟨hon, hstart, hstop⟩ := labelled_on hget hmem hlabel
    refine ⟨_, hon, hstart, hstop, ?_⟩
    change (positionsOf text encoding).range ((Option.map _
      ((Asm.assemble text).program.itemAtAddress symbol.address)).getD _) = _
    rw [hitem]
    rfl

/-- The outline has every label once, in the order of the text and without overlap. Each entry
selects the definition that the other queries go to, in a range that is all of its statement, from
the label to the operand, and says what the label stands on: the word behind it, or nothing at an
`END`. -/
theorem documentSymbols_follow (text : Str) (uri : Uri) (encoding : PositionEncoding) :
    let outline := documentSymbols (.new text) encoding
    (outline.map DocumentSymbol.name).Nodup ∧
      (∀ name, name ∈ outline.map DocumentSymbol.name ↔
        ∃ symbol, (Asm.assemble text).symbols.get name = some symbol) ∧
      outline.Pairwise (fun entry entry' => entry.range.stop < entry'.range.start) ∧
      ∀ entry ∈ outline, ∃ symbol, (Asm.assemble text).symbols.get entry.name = some symbol ∧
        entry.selectionRange = (positionsOf text encoding).range symbol.definition ∧
        entry.range.start = entry.selectionRange.start ∧
        entry.selectionRange.stop ≤ entry.range.stop ∧
        (∀ position, entry.selectionRange.Covers position →
          definition (.new text) uri position encoding = some ⟨uri, entry.selectionRange⟩ ∧
            prepareRename (.new text) position encoding =
              some ⟨entry.selectionRange, entry.name⟩) ∧
        (∀ item ∈ (Asm.assemble text).program.items,
          item.label.map Label.name = some entry.name →
            entry.detail = some (item.address.display ++ " — " ++
              String.ofList (trim (textOf text item.span))) ∧
            entry.kind = symbolKind (some item.mnemonic.kind) ∧
            entry.range =
              (positionsOf text encoding).range (symbol.definition.join item.span)) ∧
        ((∀ item ∈ (Asm.assemble text).program.items,
          item.label.map Label.name ≠ some entry.name) →
            entry.detail = none ∧ entry.kind = .FUNCTION ∧ entry.range = entry.selectionRange) := by
  intro outline
  have hnames : outline.map DocumentSymbol.name = (byAddress (.new text)).map Symbol.name := by
    simp only [outline, documentSymbols, List.map_map]
    rfl
  refine ⟨?_, fun name => ?_, ?_, ?_⟩
  · rw [hnames]
    exact byAddress_names text
  · rw [hnames, List.mem_map]
    constructor
    · rintro ⟨symbol, hmem, rfl⟩
      exact ⟨symbol, mem_byAddress.mp hmem⟩
    · rintro ⟨symbol, hget⟩
      have hname := ((Asm.assemble_traced text).symbols name symbol hget).1
      refine ⟨symbol, mem_byAddress.mpr ?_, hname⟩
      rw [hname]
      exact hget
  · refine List.pairwise_map.mpr ((byAddress_lines text).imp_of_mem ?_)
    intro symbol symbol' hmem hmem' hline
    obtain ⟨full, hon, -, -, hrange⟩ := documentSymbol_on (mem_byAddress.mp hmem) encoding
    obtain ⟨full', hon', -, -, hrange'⟩ := documentSymbol_on (mem_byAddress.mp hmem') encoding
    rw [hrange, hrange']
    exact range_lt hon hon' (hon.before hon' hline) encoding
  · intro entry hentry
    obtain ⟨symbol, hmem, rfl⟩ := List.mem_map.mp hentry
    have hget := mem_byAddress.mp hmem
    obtain ⟨-, -, mnemonic, operand, comment, hstatement⟩ :=
      (Asm.assemble_traced text).symbols _ symbol hget
    have hdefinition := hstatement.on_label _ rfl
    obtain ⟨full, hon, hstart, hstop, hrange⟩ := documentSymbol_on hget encoding
    refine ⟨symbol, hget, rfl, ?_, ?_, fun position hcovers => ?_, fun item hitem hlabel => ?_,
      fun hnone => ?_⟩
    · rw [hrange, Positions.range, hstart]
      rfl
    · rw [hrange]
      exact stop_le hdefinition hon hstop encoding
    · obtain ⟨offset, hoffset, htouches⟩ := covers_touches hdefinition hcovers
      have hoccurs := definition_occurs hget
      exact ⟨(answered (symbolAt_touched hoffset hoccurs htouches) uri).definition,
        prepareRename_touched hoffset hoccurs htouches⟩
    · have hat := (itemAtAddress_label hget item).mpr ⟨hitem, hlabel⟩
      have hat' : (Document.new text).assembly.program.itemAtAddress symbol.address = some item :=
        hat
      have haddress := (address_iff_label hget hitem).mpr hlabel
      refine ⟨?_, ?_, ?_⟩
      · unfold documentSymbol
        rw [hat', haddress]
        rfl
      · unfold documentSymbol
        rw [hat']
        rfl
      · unfold documentSymbol
        rw [hat']
        rfl
    · have hat : (Document.new text).assembly.program.itemAtAddress symbol.address = none := by
        refine Option.eq_none_iff_forall_ne_some.mpr fun item hitem => ?_
        obtain ⟨hmem, hlabel⟩ := (itemAtAddress_label hget item).mp hitem
        exact hnone item hmem hlabel
      unfold documentSymbol
      rw [hat]
      exact ⟨rfl, rfl, rfl⟩

end MarieRs.Lsp
