import MarieRs.Asm.Occurrences
import MarieRs.Lsp.Diagnostics
import MarieRs.Lsp.Offsets

namespace MarieRs.Lsp

open Asm (AtLine LineIndex Occurrence On Role Separated Span SpanAt Symbol)

inductive DocumentHighlightKind where
  | READ | WRITE
  deriving DecidableEq, Repr

structure DocumentHighlight where
  range : Range
  kind : DocumentHighlightKind
  deriving DecidableEq

/-- What a rename will replace, and what stands there. -/
structure PrepareRenameResponse where
  range : Range
  placeholder : Str
  deriving DecidableEq

/-- The definition of the label at a position. -/
def definition (document : Document) (uri : Uri) (position : Position)
    (encoding : PositionEncoding) : Option Location :=
  (symbolAt document position encoding).map fun found =>
    ⟨uri, (document.positions encoding).range found.1.definition⟩

/-- Every use of the label at a position. -/
def references (document : Document) (uri : Uri) (position : Position)
    (encoding : PositionEncoding) (includeDeclaration : Bool) : Option (List Location) :=
  (symbolAt document position encoding).map fun found =>
    let positions := document.positions encoding
    (if includeDeclaration then [⟨uri, positions.range found.1.definition⟩] else []) ++
      found.1.references.map fun span => ⟨uri, positions.range span⟩

/-- The label at a position throughout the file. Its definition is where it is written. -/
def highlight (document : Document) (position : Position) (encoding : PositionEncoding) :
    Option (List DocumentHighlight) :=
  (symbolAt document position encoding).map fun found =>
    let positions := document.positions encoding
    ⟨positions.range found.1.definition, .WRITE⟩ ::
      found.1.references.map fun span => ⟨positions.range span, .READ⟩

/-- Whether there is something to rename at a position, and what will be replaced. -/
def prepareRename (document : Document) (position : Position) (encoding : PositionEncoding) :
    Option PrepareRenameResponse :=
  (symbolAt document position encoding).map fun found =>
    let positions := document.positions encoding
    let span :=
      match found.2 with
      | .definition => found.1.definition
      | .reference =>
        (found.1.references.find? fun span => (positions.offset position).any span.touches).getD
          found.1.definition
    ⟨positions.range span, found.1.name⟩

/-- The position is in the range, or just behind it. -/
def Range.Covers (range : Range) (position : Position) : Prop :=
  range.start ≤ position ∧ position ≤ range.stop

/-- The ends of a piece of a line are on its line, and come back from their positions. -/
theorem on_ends {source : Str} {line : Nat} {span : Span} (h : On source line span)
    (encoding : PositionEncoding) :
    let positions := positionsOf source encoding
    (positions.position span.start).line = line ∧ (positions.position span.stop).line = line ∧
      positions.offset (positions.position span.start) = some span.start ∧
      positions.offset (positions.position span.stop) = some span.stop := by
  intro positions
  obtain ⟨before, piece, after, hsource, hspan⟩ := h.usable
  have hstart := offset_position encoding before (piece ++ after)
  have hstop := offset_position encoding (before ++ piece) after
  rw [List.append_assoc, utf8Len_append] at hstop
  rw [← hsource] at hstart hstop
  obtain ⟨base, front, text, rest, hat⟩ := h
  refine ⟨?_, ?_, ?_, ?_⟩
  · rw [hat.span, position_line encoding hat.line (List.prefix_append _ _)]
  · have hprefix : front ++ text <+: front ++ (text ++ rest) := by
      rw [← List.append_assoc]
      exact List.prefix_append _ _
    rw [hat.span, position_line encoding hat.line hprefix]
  · rw [hspan]
    exact hstart
  · rw [hspan]
    exact hstop

/-- Only what touches a piece of a line is at the positions that its range covers. -/
theorem covers_touches {source : Str} {line : Nat} {span : Span} (h : On source line span)
    {encoding : PositionEncoding} {position : Position}
    (hcovers : ((positionsOf source encoding).range span).Covers position) :
    ∃ offset, (positionsOf source encoding).offset position = some offset ∧
      span.touches offset = true := by
  obtain ⟨hstartLine, hstopLine, hstart, hstop⟩ := on_ends h encoding
  obtain ⟨hfrom, hto⟩ := hcovers
  have hlines : ∀ p q : Position, p ≤ q → p.line ≤ q.line := by
    intro p q hle
    have hlex : toLex (p.line, p.character) ≤ toLex (q.line, q.character) := hle
    rw [Prod.Lex.toLex_le_toLex] at hlex
    rcases hlex with hlt | ⟨heq, -⟩
    · exact hlt.le
    · exact heq.le
  have hline : position.line = line := by
    apply le_antisymm
    · rw [← hstopLine]
      exact hlines _ _ hto
    · rw [← hstartLine]
      exact hlines _ _ hfrom
  obtain ⟨base, before, piece, after, hat⟩ := h
  rw [← hline] at hat
  obtain ⟨front, -, hoffset⟩ := offset_line encoding hat.line position.character
  refine ⟨_, hoffset, ?_⟩
  have hlow := offset_mono encoding hfrom hstart hoffset
  have hhigh := offset_mono encoding hto hoffset hstop
  rw [Span.touches, Bool.and_eq_true, decide_eq_true_eq, decide_eq_true_eq]
  exact ⟨hlow, hhigh⟩

/-- Pieces in order have ranges in order. -/
theorem range_lt {source : Str} {line line' : Nat} {span span' : Span} (h : On source line span)
    (h' : On source line' span') (hlt : span.stop < span'.start) (encoding : PositionEncoding) :
    ((positionsOf source encoding).range span).stop <
      ((positionsOf source encoding).range span').start := by
  by_contra hnot
  have hle := offset_mono encoding (not_lt.mp hnot) (on_ends h' encoding).2.2.1
    (on_ends h encoding).2.2.2
  omega

theorem stop_le {source : Str} {line line' : Nat} {span span' : Span} (h : On source line span)
    (h' : On source line' span') (hle : span.stop ≤ span'.stop) (encoding : PositionEncoding) :
    ((positionsOf source encoding).range span).stop ≤
      ((positionsOf source encoding).range span').stop := by
  by_contra hnot
  have hge := offset_mono encoding (not_le.mp hnot).le (on_ends h' encoding).2.2.2
    (on_ends h encoding).2.2.2
  have heq : span.stop = span'.stop := le_antisymm hle hge
  apply hnot
  rw [Positions.range, Positions.range, heq]

/-- The range of a piece of a line is that piece. -/
theorem range_text {source : Str} {line : Nat} {span : Span} (h : On source line span)
    (encoding : PositionEncoding) :
    (positionsOf source encoding).spanClamped ((positionsOf source encoding).range span) =
      span := by
  obtain ⟨-, -, hstart, hstop⟩ := on_ends h encoding
  obtain ⟨before, piece, after, -, hspan⟩ := h.usable
  have hle : span.start ≤ span.stop := by
    rw [hspan]
    exact Nat.le_add_right _ _
  simp only [Positions.spanClamped, Positions.range, Positions.offsetClamped, hstart, hstop,
    Span.new, Nat.min_eq_left hle, Nat.max_eq_right hle]

/-- Every query at the position is about the label of this name, which is defined in one range and
used in others. -/
structure Answered (document : Document) (uri : Uri) (encoding : PositionEncoding)
    (position : Position) (name : Str) (defined : Range) (used : List Range) : Prop where
  definition : definition document uri position encoding = some ⟨uri, defined⟩
  references : ∀ includeDeclaration,
    references document uri position encoding includeDeclaration =
      some ((if includeDeclaration then defined :: used else used).map fun range => ⟨uri, range⟩)
  highlight : highlight document position encoding =
    some (⟨defined, .WRITE⟩ :: used.map fun range => ⟨range, .READ⟩)
  renames : ∀ newName edit, rename document uri position newName encoding = .ok edit →
    edit = some ⟨[(uri, (defined :: used).map fun range => ⟨range, newName⟩)]⟩

theorem answered {document : Document} {position : Position} {encoding : PositionEncoding}
    {symbol : Symbol} {role : Role} (h : symbolAt document position encoding = some (symbol, role))
    (uri : Uri) :
    Answered document uri encoding position symbol.name
      ((document.positions encoding).range symbol.definition)
      (symbol.references.map (document.positions encoding).range) := by
  refine ⟨?_, fun includeDeclaration => ?_, ?_, fun newName edit hrename => ?_⟩
  · rw [Lsp.definition, h, Option.map_some]
  · rw [Lsp.references, h, Option.map_some]
    cases includeDeclaration <;> simp [Function.comp_def]
  · rw [Lsp.highlight, h, Option.map_some, List.map_map]
    rfl
  · unfold rename at hrename
    cases herror : renameError newName with
    | some reason =>
      rw [herror] at hrename
      cases hrename
    | none =>
      simp only [herror, h] at hrename
      split at hrename
      · cases hrename
      · cases hrename
        simp [Function.comp_def]

theorem occurrence_symbol {symbol : Symbol} {o : Occurrence} (ho : o ∈ symbol.occurrences) :
    o.symbol = symbol := by
  rcases List.mem_cons.mp ho with rfl | ho
  · rfl
  · obtain ⟨span, -, rfl⟩ := List.mem_map.mp ho
    rfl

theorem mem_occurrences {source : Str} {o : Occurrence}
    (ho : o ∈ (Asm.assemble source).symbols.occurrences) :
    (Asm.assemble source).symbols.get o.symbol.name = some o.symbol ∧
      o ∈ o.symbol.occurrences ∧
      ∀ place ∈ o.symbol.occurrences, place ∈ (Asm.assemble source).symbols.occurrences := by
  obtain ⟨symbol, hsymbol, ho⟩ := List.mem_flatMap.mp ho
  obtain ⟨name, -, hget⟩ := Asm.mem_iter hsymbol
  rw [occurrence_symbol ho, ((Asm.assemble_traced source).symbols name symbol hget).1]
  exact ⟨hget, ho, fun place hplace => List.mem_flatMap.mpr ⟨symbol, hsymbol, hplace⟩⟩

/-- An occurrence is a piece of a line. -/
theorem occurrence_on {source : Str} {o : Occurrence}
    (ho : o ∈ (Asm.assemble source).symbols.occurrences) : ∃ line, On source line o.span := by
  obtain ⟨hget, hmem, -⟩ := mem_occurrences ho
  rcases Asm.occurrence_cases hget hmem with
    ⟨hspan, mnemonic, operand, comment, hstatement⟩ | ⟨item, hitem, used, hused, -, hspan⟩
  · rw [hspan]
    exact ⟨_, hstatement.on_label _ rfl⟩
  · rw [← hspan]
    exact ⟨_, ((Asm.assemble_traced source).items item hitem).on_operand hused⟩

/-- No offset touches two occurrences. -/
theorem occurrence_single {source : Str} {offset : Nat} {o o' : Occurrence}
    (ho : o ∈ (Asm.assemble source).symbols.occurrences)
    (ho' : o' ∈ (Asm.assemble source).symbols.occurrences)
    (htouches : o.span.touches offset = true) (htouches' : o'.span.touches offset = true) :
    o = o' :=
  Asm.touched_unique (Asm.occurrences_separated source) ho ho' htouches htouches'

/-- Where an occurrence is touched, its label is found. -/
theorem symbolAt_touched {text : Str} {encoding : PositionEncoding} {position : Position}
    {offset : Nat} {o : Occurrence}
    (hoffset : (positionsOf text encoding).offset position = some offset)
    (ho : o ∈ (Asm.assemble text).symbols.occurrences) (htouches : o.span.touches offset = true) :
    symbolAt (.new text) position encoding = some (o.symbol, o.role) := by
  obtain ⟨⟨symbol, role⟩, hfound⟩ := Asm.findAt_isSome ho htouches
  obtain ⟨o', ho', rfl, rfl, htouches'⟩ := Asm.findAt_occurrence hfound
  rw [← occurrence_single ho ho' htouches htouches'] at hfound
  exact Option.bind_eq_some_iff.mpr ⟨offset, hoffset, hfound⟩

/-- What would be renamed is the occurrence at the position. -/
theorem prepareRename_touched {text : Str} {encoding : PositionEncoding} {position : Position}
    {offset : Nat} {o : Occurrence}
    (hoffset : (positionsOf text encoding).offset position = some offset)
    (ho : o ∈ (Asm.assemble text).symbols.occurrences) (htouches : o.span.touches offset = true) :
    prepareRename (.new text) position encoding =
      some ⟨(positionsOf text encoding).range o.span, o.symbol.name⟩ := by
  have hoffset' : ((Document.new text).positions encoding).offset position = some offset := hoffset
  unfold prepareRename
  rw [symbolAt_touched hoffset ho htouches, Option.map_some]
  obtain ⟨-, hmem, hall⟩ := mem_occurrences ho
  rcases List.mem_cons.mp hmem with heq | hmem
  · rw [heq]
    rfl
  · obtain ⟨span, hspan, heq⟩ := List.mem_map.mp hmem
    have hfind : (o.symbol.references.find? fun span => span.touches offset) = some span := by
      have huse : ∀ used ∈ o.symbol.references, (⟨o.symbol, .reference, used⟩ : Occurrence) ∈
          (Asm.assemble text).symbols.occurrences := fun used hused =>
        hall _ (List.mem_cons_of_mem _ (List.mem_map_of_mem hused))
      rw [← heq] at htouches
      refine (Asm.find?_unique (fun a ha b hb hatA hatB => ?_) span).mpr ⟨hspan, htouches⟩
      exact congrArg Occurrence.span (occurrence_single (huse a ha) (huse b hb) hatA hatB)
    have hrole : o.role = .reference := by rw [← heq]
    have hplace : o.span = span := by rw [← heq]
    simp only [hrole, hplace, hoffset', Option.any_some, hfind, Option.getD_some]
    rfl

/-- Nothing is known of the position. -/
structure Unanswered (document : Document) (uri : Uri) (encoding : PositionEncoding)
    (position : Position) : Prop where
  definition : definition document uri position encoding = none
  references : ∀ includeDeclaration,
    references document uri position encoding includeDeclaration = none
  highlight : highlight document position encoding = none
  prepared : prepareRename document position encoding = none
  renames : ∀ newName edit, rename document uri position newName encoding = .ok edit → edit = none

theorem unanswered {document : Document} {position : Position} {encoding : PositionEncoding}
    (h : symbolAt document position encoding = none) (uri : Uri) :
    Unanswered document uri encoding position := by
  refine ⟨?_, fun includeDeclaration => ?_, ?_, ?_, fun newName edit hrename => ?_⟩
  · rw [Lsp.definition, h, Option.map_none]
  · rw [Lsp.references, h, Option.map_none]
  · rw [Lsp.highlight, h, Option.map_none]
  · rw [prepareRename, h, Option.map_none]
  · unfold rename at hrename
    cases herror : renameError newName with
    | some reason =>
      rw [herror] at hrename
      cases hrename
    | none =>
      simp only [herror, h] at hrename
      cases hrename
      rfl

/-- Asked anywhere, the queries either know nothing or give the places of one label, each of which
spells its name. From anywhere in these places they give the same answers again, and each is the
one that a rename there would start from. -/
theorem queries_closed (text : Str) (uri : Uri) (encoding : PositionEncoding)
    (position : Position) :
    Unanswered (.new text) uri encoding position ∨
      ∃ name defined used, Answered (.new text) uri encoding position name defined used ∧
        (∃ range ∈ defined :: used,
          prepareRename (.new text) position encoding = some ⟨range, name⟩) ∧
        used.Pairwise (fun range range' => range.stop < range'.start) ∧
        ∀ range ∈ defined :: used,
          ((positionsOf text encoding).spanClamped range).text text = some name ∧
            ∀ other, range.Covers other →
              Answered (.new text) uri encoding other name defined used ∧
                prepareRename (.new text) other encoding = some ⟨range, name⟩ := by
  cases hfound : symbolAt (.new text) position encoding with
  | none => exact .inl (unanswered hfound uri)
  | some found =>
    obtain ⟨symbol, role⟩ := found
    obtain ⟨offset, hoffset, hat⟩ := Option.bind_eq_some_iff.mp hfound
    obtain ⟨o, ho, rfl, rfl, htouches⟩ := Asm.findAt_occurrence hat
    obtain ⟨hget, hmem, hall⟩ := mem_occurrences ho
    have hmap : (positionsOf text encoding).range o.symbol.definition ::
        o.symbol.references.map (positionsOf text encoding).range =
          o.symbol.occurrences.map fun place => (positionsOf text encoding).range place.span := by
      rw [Asm.Symbol.occurrences, List.map_cons, List.map_map]
      rfl
    refine .inr ⟨_, _, _, answered hfound uri, ?_, ?_, ?_⟩
    · refine ⟨_, ?_, prepareRename_touched hoffset ho htouches⟩
      exact hmap ▸ List.mem_map_of_mem hmem
    · have hordered := Asm.references_ordered hget
      refine List.pairwise_map.mpr (hordered.imp_of_mem fun {span span'} hspan hspan' hlt => ?_)
      have huse : ∀ used ∈ o.symbol.references, ∃ line, On text line used := fun used hused =>
        occurrence_on (hall ⟨o.symbol, .reference, used⟩
          (List.mem_cons_of_mem _ (List.mem_map_of_mem hused)))
      obtain ⟨line, hon⟩ := huse span hspan
      obtain ⟨line', hon'⟩ := huse span' hspan'
      exact range_lt hon hon' hlt encoding
    · intro range hrange
      have hrange' : range ∈ o.symbol.occurrences.map fun place =>
          (positionsOf text encoding).range place.span := hmap ▸ hrange
      obtain ⟨place, hplace, rfl⟩ := List.mem_map.mp hrange'
      have hsame := occurrence_symbol hplace
      obtain ⟨line, hon⟩ := occurrence_on (hall place hplace)
      refine ⟨?_, fun other hcovers => ?_⟩
      · rw [range_text hon encoding]
        exact Asm.occurrence_text hget hplace
      · obtain ⟨offset', hoffset', htouches'⟩ := covers_touches hon hcovers
        have hfound' := symbolAt_touched hoffset' (hall place hplace) htouches'
        have hprepared := prepareRename_touched hoffset' (hall place hplace) htouches'
        rw [hsame] at hfound' hprepared
        exact ⟨answered hfound' uri, hprepared⟩

end MarieRs.Lsp
