import MarieRs.Asm.Tails
import MarieRs.Lsp.Queries
import MarieRs.Lsp.SemanticTokens

namespace MarieRs.Lsp

open Asm (AtLine Body Parts Span StatementOn Symbol isWordChar textOf)

/-- `str::split_whitespace` -/
def splitWhitespace (s : Str) : List Str := (s.splitOnP isWhitespace).filter (· ≠ [])

/-- `str::split_once` -/
def splitOnce (s : Str) (delimiter : Char) : Option (Str × Str) :=
  match s.dropWhile (· != delimiter) with
  | [] => none
  | _ :: rest => some (s.takeWhile (· != delimiter), rest)

theorem splitWhitespace_cons {c : Char} (h : isWhitespace c = true) (s : Str) :
    splitWhitespace (c :: s) = splitWhitespace s := by
  unfold splitWhitespace
  rw [List.splitOnP_cons_eq_if_modifyHead, if_pos h, List.filter_cons_of_neg (by simp)]

theorem splitWhitespace_append {space : Str} (h : space.all isWhitespace = true) (s : Str) :
    splitWhitespace (space ++ s) = splitWhitespace s := by
  induction space with
  | nil => rfl
  | cons c space ih =>
    rw [List.all_cons, Bool.and_eq_true] at h
    rw [List.cons_append, splitWhitespace_cons h.1, ih h.2]

theorem splitWhitespace_word {word : Str} (hne : word ≠ [])
    (h : ∀ c ∈ word, isWhitespace c = false) : splitWhitespace word = [word] := by
  unfold splitWhitespace
  rw [List.splitOnP_eq_singleton h, List.filter_cons_of_pos (by simpa using hne), List.filter_nil]

theorem splitWhitespace_first {word : Str} (hne : word ≠ [])
    (h : ∀ c ∈ word, isWhitespace c = false) {c : Char} (hc : isWhitespace c = true) (s : Str) :
    splitWhitespace (word ++ c :: s) = word :: splitWhitespace s := by
  unfold splitWhitespace
  rw [List.splitOnP_append_cons_of_forall_mem h c hc, List.filter_cons_of_pos (by simpa using hne)]

/-- Whitespace at its end is all that a text without words can have. -/
theorem splitWhitespace_nil {s : Str} (h : splitWhitespace s = []) :
    s.all isWhitespace = true := by
  induction s with
  | nil => rfl
  | cons c s ih =>
    by_cases hc : isWhitespace c = true
    · rw [splitWhitespace_cons hc] at h
      rw [List.all_cons, hc, ih h]
      rfl
    · unfold splitWhitespace at h
      rw [List.splitOnP_cons_eq_if_modifyHead, if_neg hc] at h
      obtain ⟨first, rest, hsplit⟩ :=
        List.exists_cons_of_ne_nil (List.splitOnP_ne_nil isWhitespace s)
      rw [hsplit, List.modifyHead_cons, List.filter_cons_of_pos (by simp)] at h
      cases h

theorem splitOnce_none {s : Str} {delimiter : Char} (h : delimiter ∉ s) :
    splitOnce s delimiter = none := by
  have hdrop : s.dropWhile (· != delimiter) = [] := by
    rw [List.dropWhile_eq_nil_iff]
    intro c hc
    rw [bne_iff_ne]
    rintro rfl
    exact h hc
  unfold splitOnce
  rw [hdrop]

theorem splitOnce_append {s : Str} {delimiter : Char} (h : delimiter ∉ s) (rest : Str) :
    splitOnce (s ++ delimiter :: rest) delimiter = some (s, rest) := by
  have hall : ∀ c ∈ s, (c != delimiter) = true := by
    intro c hc
    rw [bne_iff_ne]
    rintro rfl
    exact h hc
  unfold splitOnce
  rw [List.dropWhile_append_of_pos hall, List.takeWhile_append_of_pos hall,
    List.dropWhile_cons_of_neg (by simp), List.takeWhile_cons_of_neg (by simp), List.append_nil]

/-- Where in a line the caret sits, which decides what can go there. -/
inductive Context where
  | mnemonic
  | operand (mnemonic : Str)
  | comment
  deriving DecidableEq

/-- The first word of a statement is being typed unless whitespace has closed it. -/
def statementContext (statement : Str) : Context :=
  match splitWhitespace statement with
  | [] => .mnemonic
  | first :: more =>
    if (statement.getLast?).any isWhitespace || !more.isEmpty then
      .operand (toAsciiLowercase first)
    else .mnemonic

/-- What the caret can be followed by, told by the line in front of it: a line that is being
typed is usually not yet valid. -/
def contextAt (line : Str) (column : Nat) : Context :=
  let front := line.take column
  if front.contains '/' then .comment
  else
    -- a label and its comma are not part of the statement
    match splitOnce front ',' with
    | some (_, rest) => statementContext rest
    | none => statementContext front

inductive CompletionItemKind where
  | KEYWORD | VARIABLE | CONSTANT
  deriving DecidableEq, Repr

structure CompletionItem where
  label : Str
  kind : CompletionItemKind
  detail : String
  documentation : Option String
  sortText : Option String
  deriving DecidableEq

def DIRECTIVES : List Directive := [.org, .dec, .oct, .hex, .adr, .clear, .end_]

/-- Every instruction and directive, in this order. -/
def mnemonics : List CompletionItem :=
  Opcode.all.map (fun opcode =>
    ⟨opcode.mnemonic.toList, .KEYWORD,
      "opcode 0x" ++ String.ofList (hexPadded 1 opcode.toNibble), some opcode.description,
      some ("0" ++ opcode.mnemonic)⟩) ++
  DIRECTIVES.map fun directive =>
    ⟨directive.mnemonic.toList, .KEYWORD, "assembler directive", some directive.description,
      some ("1" ++ directive.mnemonic)⟩

/-- The operands of `Skipcond`, with the leading zero that `0C00` needs. -/
def CONDITIONS : List (String × String) :=
  [("000", "skip if AC < 0"), ("400", "skip if AC = 0"), ("800", "skip if AC > 0"),
    ("0C00", "skip if AC != 0")]

/-- Labels, or the four conditions when the mnemonic is `Skipcond`. -/
def operands (document : Document) (mnemonic : Str) : List CompletionItem :=
  if mnemonic = "skipcond".toList then
    CONDITIONS.map fun condition =>
      ⟨condition.1.toList, .CONSTANT, condition.2,
        some ("Only bits 11-10 of the operand select the condition. " ++
          "`0C00` needs its leading zero, or it is read as a label."),
        some ("0" ++ condition.1)⟩
  else
    document.assembly.symbols.iter.map fun symbol =>
      ⟨symbol.name, .VARIABLE, "address " ++ symbol.address.display,
        ((document.assembly.program.itemAtAddress symbol.address).bind fun item =>
          item.span.text document.text).map fun text => String.ofList (trim text),
        none⟩

def offered (document : Document) : Context → List CompletionItem
  | .comment => []
  | .mnemonic => mnemonics
  | .operand mnemonic => operands document mnemonic

/-- What can be written at a position; none if the line is cut inside a character, or the caret is
in front of it. -/
def completion (document : Document) (position : Position) (encoding : PositionEncoding) :
    Option (List CompletionItem) :=
  match document.assembly.lines.lineStart position.line,
      document.assembly.lines.lineEnd position.line with
  | some start, some stop =>
    let line := (Span.text ⟨start, stop⟩ document.text).getD []
    let column :=
      match (document.positions encoding).offset position with
      | some offset => checkedSub offset start
      | none => some 0
    column.bind fun column =>
      (sliceBytes line 0 (min column (utf8Len line))).map fun front =>
        offered document (contextAt line front.length)
  | _, _ => some []

/-- Completion cuts the line where the caret is. -/
theorem completion_line {text line : Str} {number base : Nat} (h : AtLine text line number base)
    (encoding : PositionEncoding) (character : Nat) :
    ∃ front, Cuts encoding character line front ∧
      (positionsOf text encoding).offset ⟨number, character⟩ = some (base + utf8Len front) ∧
      completion (.new text) ⟨number, character⟩ encoding =
        some (offered (.new text) (contextAt line front.length)) := by
  obtain ⟨front, hcuts, hoffset⟩ := offset_line encoding h character
  refine ⟨front, hcuts, hoffset, ?_⟩
  obtain ⟨hstart, hstop⟩ := Asm.line_span h
  obtain ⟨cut, hline⟩ := hcuts.within
  obtain ⟨rest, hsource⟩ := h.split
  have htext : Span.text ⟨base, base + utf8Len line⟩ text = some line := by
    have hslice := sliceBytes_append (Asm.joined ((text.splitOn '\n').take number)) line rest
    rw [← hsource, ← h.base] at hslice
    exact hslice
  have hfront : sliceBytes line 0 (utf8Len front) = some front := by
    have hslice := sliceBytes_append [] front cut
    rw [List.nil_append, hline, utf8Len_nil, Nat.zero_add] at hslice
    exact hslice
  have hle : utf8Len front ≤ utf8Len line := utf8Len_le_of_prefix hcuts.within
  have hstart' : (Document.new text).assembly.lines.lineStart number = some base := hstart
  have hstop' : (Document.new text).assembly.lines.lineEnd number =
      some (base + utf8Len line) := hstop
  have hoffset' : ((Document.new text).positions encoding).offset ⟨number, character⟩ =
      some (base + utf8Len front) := hoffset
  have hsub : checkedSub (base + utf8Len front) base = some (utf8Len front) := by
    rw [checkedSub, if_pos (Nat.le_add_right _ _), Nat.add_sub_cancel_left]
  have htext' : Span.text ⟨base, base + utf8Len line⟩ (Document.new text).text = some line := htext
  unfold completion
  simp only [hstart', hstop', hoffset', hsub, htext', Option.getD_some, Option.bind_some,
    Nat.min_eq_left hle, hfront, Option.map_some]

/-- Completion always answers. -/
theorem completion_answers (text : Str) (position : Position) (encoding : PositionEncoding) :
    ∃ items, completion (.new text) position encoding = some items := by
  by_cases hline : position.line < (Asm.LineIndex.new text).lineCount
  · obtain ⟨line, base, hat⟩ := line_exists hline
    obtain ⟨front, -, -, hanswer⟩ := completion_line hat encoding position.character
    exact ⟨_, hanswer⟩
  · have hstart := Asm.lineStart_eq text position.line
    rw [Asm.lineCount_eq] at hline
    rw [if_neg hline] at hstart
    have hstart' : (Document.new text).assembly.lines.lineStart position.line = none := hstart
    refine ⟨[], ?_⟩
    unfold completion
    simp only [hstart']

/-- Words are not cut by commas or whitespace. -/
theorem word_chars {word : Str} (h : Asm.IsWord word) :
    word ≠ [] ∧ ',' ∉ word ∧ ∀ c ∈ word, isWhitespace c = false := by
  obtain ⟨first, rest, rfl, hfirst, hrest⟩ := h
  have hall : ∀ c ∈ first :: rest, isWordChar c = true := by
    intro c hc
    rcases List.mem_cons.mp hc with rfl | hc
    · exact hfirst
    · exact Asm.bare_word (List.all_eq_true.mp hrest c hc)
  refine ⟨List.cons_ne_nil _ _, fun hcomma => ?_, fun c hc => ?_⟩
  · exact absurd (hall _ hcomma) (by decide)
  · exact Asm.word_not_whitespace (hall c hc)

/-- In front of a comment, a tail is whitespace. -/
theorem tail_front {s front : Str} (h : Asm.isTail s = true) (hfront : front <+: s)
    (hslash : '/' ∉ front) : front.all isWhitespace = true := by
  have hspace : ∀ part, part <+: s.takeWhile isWhitespace → part.all isWhitespace = true := by
    intro part hpart
    exact List.all_eq_true.mpr fun c hc =>
      List.all_eq_true.mp (Asm.all_takeWhile isWhitespace s) c (hpart.subset hc)
  have hsplit : s.takeWhile isWhitespace ++ s.dropWhile isWhitespace = s :=
    List.takeWhile_append_dropWhile
  unfold Asm.isTail at h
  cases hdrop : s.dropWhile isWhitespace with
  | nil =>
    rw [hdrop, List.append_nil] at hsplit
    apply hspace
    rw [hsplit]
    exact hfront
  | cons c rest =>
    rw [hdrop] at h hsplit
    obtain rfl : c = '/' := by simpa using h
    have hcomment : s.takeWhile isWhitespace ++ ['/'] <+: s :=
      ⟨rest, by rw [List.append_assoc, List.singleton_append, hsplit]⟩
    rcases List.prefix_or_prefix_of_prefix hfront hcomment with hle | hle
    · rcases List.prefix_concat_iff.mp hle with heq | hle
      · rw [heq] at hslash
        exact absurd (List.mem_append_right _ (List.mem_singleton_self _)) hslash
      · exact hspace front hle
    · exact absurd (hle.subset (List.mem_append_right _ (List.mem_singleton_self _))) hslash

/-- Either the first part of a text is not over, or the second has begun. -/
theorem prefix_parts {front s t : Str} (h : front <+: s ++ t) :
    front <+: s ∨ ∃ more, front = s ++ more ∧ more <+: t := by
  obtain ⟨rest, hrest⟩ := h
  rcases List.append_eq_append_iff.mp hrest with ⟨cut, hs, -⟩ | ⟨more, hfront, ht⟩
  · exact .inl ⟨cut, hs.symm⟩
  · exact .inr ⟨more, hfront, ⟨rest, ht.symm⟩⟩

theorem space_comma {s : Str} (h : s.all isWhitespace = true) : ',' ∉ s := fun hcomma =>
  absurd (List.all_eq_true.mp h _ hcomma) (by decide)

/-- What is behind the operator of a statement and in front of a comment. -/
theorem after_front {b : Body} (h : b.Valid) {front : Str}
    (hfront : front <+: b.operandText ++ b.tail) (hslash : '/' ∉ front) :
    ',' ∉ front ∧ ∀ c ∈ front.head?, isWhitespace c = true := by
  have hhead : ∀ {s : Str}, s.all isWhitespace = true → ∀ c ∈ s.head?, isWhitespace c = true :=
    fun hs c hc => List.all_eq_true.mp hs c (List.mem_of_mem_head? hc)
  cases hoperand : b.operand with
  | none =>
    rw [Body.operandText, hoperand] at hfront
    have hspace := tail_front h.tail hfront hslash
    exact ⟨space_comma hspace, hhead hspace⟩
  | some found =>
    obtain ⟨gap, word⟩ := found
    obtain ⟨hne, hgap, hword⟩ := h.operand gap word hoperand
    rw [Body.operandText, hoperand] at hfront
    simp only [List.append_assoc] at hfront
    rcases prefix_parts hfront with hfront | ⟨more, rfl, hmore⟩
    · have hspace : front.all isWhitespace = true := List.all_eq_true.mpr fun c hc =>
        List.all_eq_true.mp hgap c (hfront.subset hc)
      exact ⟨space_comma hspace, hhead hspace⟩
    · have hslash' : '/' ∉ more := fun hmem => hslash (List.mem_append_right _ hmem)
      refine ⟨?_, ?_⟩
      · rw [List.mem_append, not_or]
        refine ⟨space_comma hgap, ?_⟩
        rcases prefix_parts hmore with hin | ⟨tail, rfl, htail⟩
        · exact fun hcomma => (word_chars hword).2.1 (hin.subset hcomma)
        · rw [List.mem_append, not_or] at hslash' ⊢
          exact ⟨(word_chars hword).2.1, space_comma (tail_front h.tail htail hslash'.2)⟩
      · intro c hc
        cases gap with
        | nil => exact absurd rfl hne
        | cons d gap =>
          cases hc
          exact List.all_eq_true.mp hgap _ List.mem_cons_self

/-- A statement has no comma of its own in front of a comment. -/
theorem body_front {b : Body} (h : b.Valid) {front : Str} (hfront : front <+: b.text)
    (hslash : '/' ∉ front) : ',' ∉ front := by
  obtain ⟨-, hcomma, -⟩ := word_chars h.mnemonic
  rcases prefix_parts hfront with hgap | ⟨more, rfl, hmore⟩
  · exact fun hmem => space_comma h.gap (hgap.subset hmem)
  · rw [List.mem_append, not_or] at hslash ⊢
    refine ⟨space_comma h.gap, ?_⟩
    rcases prefix_parts hmore with hword | ⟨after, rfl, hafter⟩
    · exact fun hmem => hcomma (hword.subset hmem)
    · rw [List.mem_append, not_or] at hslash ⊢
      exact ⟨hcomma, (after_front h hafter hslash.2.2).1⟩

/-- A word that is being typed is the mnemonic. -/
theorem statementContext_typing {space word : Str} (hspace : space.all isWhitespace = true)
    (hword : ∀ c ∈ word, isWhitespace c = false) :
    statementContext (space ++ word) = .mnemonic := by
  unfold statementContext
  rw [splitWhitespace_append hspace]
  cases word with
  | nil => rfl
  | cons c word =>
    have hlast : ((space ++ c :: word).getLast?).any isWhitespace = false := by
      rw [List.getLast?_append_of_ne_nil _ (List.cons_ne_nil _ _),
        List.getLast?_eq_some_getLast (List.cons_ne_nil _ _), Option.any_some]
      exact hword _ (List.getLast_mem _)
    rw [splitWhitespace_word (List.cons_ne_nil _ _) hword, hlast]
    rfl

/-- Behind the mnemonic there is its operand. -/
theorem statementContext_closed {space word : Str} (hspace : space.all isWhitespace = true)
    (hne : word ≠ []) (hword : ∀ c ∈ word, isWhitespace c = false) {c : Char}
    (hc : isWhitespace c = true) (rest : Str) :
    statementContext (space ++ (word ++ c :: rest)) = .operand (toAsciiLowercase word) := by
  unfold statementContext
  rw [splitWhitespace_append hspace, splitWhitespace_first hne hword hc]
  cases hwords : splitWhitespace rest with
  | nil =>
    -- only whitespace follows, and closes the word
    have hall := splitWhitespace_nil hwords
    have hlast : ((space ++ (word ++ c :: rest)).getLast?).any isWhitespace = true := by
      rw [← List.append_assoc, List.getLast?_append_of_ne_nil _ (List.cons_ne_nil _ _),
        List.getLast?_eq_some_getLast (List.cons_ne_nil _ _), Option.any_some]
      rcases List.mem_cons.mp (List.getLast_mem (List.cons_ne_nil c rest)) with heq | hmem
      · rw [heq]
        exact hc
      · exact List.all_eq_true.mp hall _ hmem
    simp only [hlast, Bool.true_or, if_true]
  | cons next more => simp

/-- How far a statement has been typed. -/
theorem statementContext_body {b : Body} (h : b.Valid) {space front : Str}
    (hspace : space.all isWhitespace = true) (hfront : front <+: b.text) (hslash : '/' ∉ front) :
    statementContext (space ++ front) =
      if front.length ≤ b.gap.length + b.mnemonic.length then .mnemonic
      else .operand (toAsciiLowercase b.mnemonic) := by
  obtain ⟨hne, -, hchars⟩ := word_chars h.mnemonic
  rcases prefix_parts hfront with hgap | ⟨more, rfl, hmore⟩
  · have hlength := hgap.length_le
    have hall : (space ++ front).all isWhitespace = true := by
      rw [List.all_append, hspace, Bool.true_and]
      exact List.all_eq_true.mpr fun c hc => List.all_eq_true.mp h.gap c (hgap.subset hc)
    have hcontext := statementContext_typing hall (List.forall_mem_nil _)
    rw [List.append_nil] at hcontext
    rw [hcontext, if_pos (by omega)]
  · have hall : (space ++ b.gap).all isWhitespace = true := by
      rw [List.all_append, hspace, h.gap]
      rfl
    rw [← List.append_assoc]
    rcases prefix_parts hmore with hword | ⟨after, rfl, hafter⟩
    · have hlength := hword.length_le
      rw [statementContext_typing hall fun c hc => hchars c (hword.subset hc),
        if_pos (by rw [List.length_append]; omega)]
    · cases after with
      | nil => rw [List.append_nil, statementContext_typing hall hchars, if_pos (by simp)]
      | cons c after =>
        have hslash' : '/' ∉ c :: after := fun hmem =>
          hslash (List.mem_append_right _ (List.mem_append_right _ hmem))
        have hspaced := (after_front h hafter hslash').2 c rfl
        rw [statementContext_closed hall hne hchars hspaced,
          if_neg (by simp only [List.length_append, List.length_cons]; omega)]

/-- In front of its body, a statement has whitespace, or a label and its comma. -/
theorem contextAt_code {p : Parts} (h : p.Sound) {code : Str} (hcode : code <+: p.body.text)
    (hslash : '/' ∉ (p.lead ++ p.labelText) ++ code) :
    contextAt p.text ((p.lead ++ p.labelText) ++ code).length =
      if code.length ≤ p.body.gap.length + p.body.mnemonic.length then .mnemonic
      else .operand (toAsciiLowercase p.body.mnemonic) := by
  have hfront : (p.lead ++ p.labelText) ++ code <+: p.text := by
    rw [Parts.text, ← List.append_assoc]
    exact (List.prefix_append_right_inj _).mpr hcode
  have hcut := (List.prefix_iff_eq_take.mp hfront).symm
  have hnot : ((p.lead ++ p.labelText) ++ code).contains '/' = false := by
    rw [Bool.eq_false_iff]
    exact fun hmem => hslash (List.contains_iff_mem.mp hmem)
  have hslash' : '/' ∉ code := fun hmem => hslash (List.mem_append_right _ hmem)
  unfold contextAt
  simp only [hcut, hnot, Bool.false_eq_true, if_false]
  cases hlabel : p.label with
  | none =>
    have hcomma : ',' ∉ p.lead ++ p.labelText ++ code := by
      rw [Parts.labelText, hlabel, List.append_nil, List.mem_append, not_or]
      exact ⟨space_comma h.lead, body_front h.body hcode hslash'⟩
    rw [splitOnce_none hcomma, Parts.labelText, hlabel, List.append_nil]
    exact statementContext_body h.body h.lead hcode hslash'
  | some name =>
    have hcomma : ',' ∉ p.lead ++ name := by
      rw [List.mem_append, not_or]
      refine ⟨space_comma h.lead, fun hmem => ?_⟩
      exact absurd (List.all_eq_true.mp (h.label hlabel).2 _ hmem) (by decide)
    have hline : p.lead ++ p.labelText ++ code = (p.lead ++ name) ++ ',' :: code := by
      rw [Parts.labelText, hlabel]
      simp
    rw [hline, splitOnce_append hcomma]
    exact statementContext_body h.body (List.all_nil) hcode hslash'

/-- Completion and the assembler agree on where in a statement the caret is, unless it is in the
label. -/
theorem contextAt_parts {p : Parts} (h : p.Sound) {front : Str} (hfront : front <+: p.text)
    (hslash : '/' ∉ front) (hbehind : ∀ name ∈ p.label, p.bodyStart ≤ front.length) :
    contextAt p.text front.length =
      if front.length ≤ p.mnemonicRange.2 then .mnemonic
      else .operand (toAsciiLowercase p.body.mnemonic) := by
  have hrange : p.mnemonicRange.2 =
      (p.lead ++ p.labelText).length + (p.body.gap.length + p.body.mnemonic.length) := by
    rw [List.length_append, Parts.mnemonicRange, Parts.bodyStart, Body.mnemonicRange]
    exact Nat.add_assoc _ _ _
  have htext : p.text = (p.lead ++ p.labelText) ++ p.body.text := by
    rw [Parts.text, List.append_assoc]
  rw [htext] at hfront
  rcases prefix_parts hfront with hle | ⟨code, rfl, hcode⟩
  · have hlength := hle.length_le
    rw [if_pos (by omega)]
    cases hlabel : p.label with
    | none =>
      -- the caret is in the whitespace in front of the statement
      rw [Parts.labelText, hlabel, List.append_nil] at hle
      have hall : front.all isWhitespace = true := List.all_eq_true.mpr fun c hc =>
        List.all_eq_true.mp h.lead c (hle.subset hc)
      have hcut : p.text.take front.length = front :=
        (List.prefix_iff_eq_take.mp (hle.trans (List.prefix_append _ _))).symm
      have hnot : front.contains '/' = false := by
        rw [Bool.eq_false_iff]
        exact fun hmem => hslash (List.contains_iff_mem.mp hmem)
      have hcontext := statementContext_typing hall (List.forall_mem_nil _)
      rw [List.append_nil] at hcontext
      unfold contextAt
      simp only [hcut, hnot, Bool.false_eq_true, if_false, splitOnce_none (space_comma hall),
        hcontext]
    | some name =>
      have hstart := hbehind name hlabel
      rw [Parts.bodyStart, ← List.length_append] at hstart
      have heq : front = (p.lead ++ p.labelText) ++ [] := by
        rw [List.append_nil]
        exact hle.eq_of_length (by omega)
      rw [heq] at hslash ⊢
      rw [contextAt_code h List.nil_prefix hslash, if_pos (by simp)]
  · rw [contextAt_code h hcode hslash, hrange]
    simp only [List.length_append, Nat.add_le_add_iff_left]

theorem space_slash {s : Str} (h : s.all isWhitespace = true) : '/' ∉ s := fun hslash =>
  absurd (List.all_eq_true.mp h _ hslash) (by decide)

/-- A line is its code, and a comment that begins with the first slash. -/
theorem code_comment {p : Parts} (h : p.Sound) (hmnemonic : '/' ∉ p.body.mnemonic)
    (hoperand : ∀ gap word, p.body.operand = some (gap, word) → '/' ∉ word) :
    ∃ code comment, p.text = code ++ comment ∧ '/' ∉ code ∧
      (∀ c ∈ comment.head?, c = '/') ∧
      Asm.commentRange p.text.length p.body.tail =
        if comment = [] then none else some (code.length, p.text.length) := by
  have hsplit : p.body.tail.takeWhile isWhitespace ++ p.body.tail.dropWhile isWhitespace =
      p.body.tail := List.takeWhile_append_dropWhile
  have htext : p.text = (p.lead ++ p.labelText ++ (p.body.gap ++ (p.body.mnemonic ++
      (p.body.operandText ++ p.body.tail.takeWhile isWhitespace)))) ++
        p.body.tail.dropWhile isWhitespace := by
    simp only [Parts.text, Body.text, List.append_assoc, hsplit]
  refine ⟨_, _, htext, ?_, ?_, ?_⟩
  · have hlabel : '/' ∉ p.labelText := by
      unfold Parts.labelText
      cases hname : p.label with
      | none => exact List.not_mem_nil
      | some name =>
        rw [List.mem_append, not_or]
        refine ⟨fun hmem => ?_, by decide⟩
        exact absurd (List.all_eq_true.mp (h.label hname).2 _ hmem) (by decide)
    have hword : '/' ∉ p.body.operandText := by
      unfold Body.operandText
      cases hfound : p.body.operand with
      | none => exact List.not_mem_nil
      | some found =>
        obtain ⟨gap, word⟩ := found
        rw [List.mem_append, not_or]
        exact ⟨space_slash (h.body.operand gap word hfound).2.1, hoperand gap word hfound⟩
    simp only [List.mem_append, not_or]
    exact ⟨⟨space_slash h.lead, hlabel⟩, space_slash h.body.gap, hmnemonic, hword,
      space_slash (Asm.all_takeWhile isWhitespace _)⟩
  · intro c hc
    have htail := h.body.tail
    unfold Asm.isTail at htail
    cases hdrop : p.body.tail.dropWhile isWhitespace with
    | nil =>
      rw [hdrop] at hc
      cases hc
    | cons d rest =>
      rw [hdrop] at hc htail
      cases hc
      simpa using htail
  · unfold Asm.commentRange
    split
    · rfl
    · rw [Option.some.injEq, Prod.mk.injEq]
      refine ⟨?_, rfl⟩
      conv_lhs => rw [htext]
      rw [List.length_append, Nat.add_sub_cancel]

/-- The first slash is in front of the caret exactly if the code is, and more. -/
theorem commented_front {code comment front : Str} (hcode : '/' ∉ code)
    (hcomment : ∀ c ∈ comment.head?, c = '/') (hfront : front <+: code ++ comment) :
    ¬front.length ≤ code.length ↔ '/' ∈ front := by
  rcases prefix_parts hfront with hle | ⟨more, rfl, hmore⟩
  · have hnot : '/' ∉ front := fun hmem => hcode (hle.subset hmem)
    simp only [hle.length_le, not_true_eq_false, hnot]
  · cases more with
    | nil => simpa using hcode
    | cons c more =>
      obtain ⟨rest, hrest⟩ := hmore
      have hslash : c = '/' := hcomment c (by rw [← hrest]; rfl)
      rw [hslash, List.length_append, List.length_cons]
      simp

/-- Beginnings of a text are in the order of their bytes. -/
theorem prefix_bytes {s front front' : Str} (h : front <+: s) (h' : front' <+: s) :
    utf8Len front ≤ utf8Len front' ↔ front.length ≤ front'.length := by
  constructor
  · exact fun hle => (Asm.prefix_of_utf8Len h h' hle).length_le
  · exact fun hle => utf8Len_le_of_prefix (List.prefix_of_prefix_length_le h h' hle)

theorem bytes_le {s front : Str} {n : Nat} (base : Nat) (h : front <+: s) (hn : n ≤ s.length) :
    base + utf8Len front ≤ base + utf8Len (s.take n) ↔ front.length ≤ n := by
  rw [Nat.add_le_add_iff_left, prefix_bytes h (List.take_prefix n s), List.length_take,
    Nat.min_eq_left hn]

/-- On a line that the assembler reads as a statement, behind its label, completion offers what
belongs where the caret is: nothing in the comment, instructions and directives up to the end of
the mnemonic, and from there on the operands of that very mnemonic. -/
theorem completion_reads {text line : Str} {number base : Nat} {label : Option Span}
    {mnemonic : Span} {operand comment : Option Span} (hline : AtLine text line number base)
    (hform : Asm.splitLine line base = .statement label mnemonic operand comment)
    (hmnemonic : '/' ∉ textOf text mnemonic) (hoperand : ∀ span ∈ operand, '/' ∉ textOf text span)
    (encoding : PositionEncoding) (character : Nat) :
    ∃ offset, (positionsOf text encoding).offset ⟨number, character⟩ = some offset ∧
      ((∀ span ∈ label, span.stop < offset) →
        completion (.new text) ⟨number, character⟩ encoding = some
          (if (comment.any fun span => span.start < offset) then []
          else if offset ≤ mnemonic.stop then mnemonics
          else operands (.new text) (toAsciiLowercase (textOf text mnemonic)))) := by
  obtain ⟨p, hsound, rfl, -, rfl, rfl, rfl, rfl⟩ := Asm.statement_parts hform
  obtain ⟨front, hcuts, hoffset, hcompletion⟩ := completion_line hline encoding character
  refine ⟨_, hoffset, fun hbehind => ?_⟩
  rw [hcompletion]
  have hfront := hcuts.within
  have hname : textOf text (Asm.charSpan p.text base p.mnemonicRange) = p.body.mnemonic := by
    rw [hline.textOf p.mnemonicRange_within, p.slice_mnemonic]
  have hword : ∀ gap word, p.body.operand = some (gap, word) → '/' ∉ word := by
    intro gap word hfound
    obtain ⟨htext, hrange⟩ := Parts.operand_split hfound
    have hwithin := p.operandRange_within _ hrange
    have hslash := hoperand _ (by rw [hrange, Option.map_some]; rfl)
    rw [hline.textOf hwithin] at hslash
    have hslice := p.slice_operand
    rw [hrange, hfound, Option.map_some, Option.map_some, Option.some.injEq] at hslice
    rw [hslice] at hslash
    exact hslash
  rw [hname] at hmnemonic ⊢
  obtain ⟨code, rest, htext, hcode, hrest, hrange⟩ := code_comment hsound hmnemonic hword
  have hcommented : (((Asm.commentRange p.text.length p.body.tail).map
      (Asm.charSpan p.text base)).any fun span => span.start < base + utf8Len front) =
        decide ('/' ∈ front) := by
    rw [hrange]
    by_cases hnone : rest = []
    · have hnot : '/' ∉ front := by
        rw [htext, hnone, List.append_nil] at hfront
        exact fun hmem => hcode (hfront.subset hmem)
      rw [if_pos hnone, decide_eq_false hnot]
      rfl
    · have hlength : code.length ≤ p.text.length := by
        rw [htext, List.length_append]
        exact Nat.le_add_right _ _
      have hstart := bytes_le base hfront hlength
      rw [if_neg hnone, Option.map_some, Option.any_some]
      change decide (base + utf8Len (p.text.take code.length) < base + utf8Len front) = _
      rw [decide_eq_decide, ← not_le, hstart, commented_front hcode hrest (htext ▸ hfront)]
  simp only [hcommented, decide_eq_true_eq]
  by_cases hslash : '/' ∈ front
  · have hcut : p.text.take front.length = front := (List.prefix_iff_eq_take.mp hfront).symm
    have hcontext : contextAt p.text front.length = .comment := by
      unfold contextAt
      simp only [hcut, List.contains_iff_mem.mpr hslash, if_true]
    rw [hcontext, if_pos hslash]
    rfl
  · have hstop := bytes_le base hfront p.mnemonicRange_within.2
    have hstart : ∀ name ∈ p.label, p.bodyStart ≤ front.length := by
      intro name hlabel
      have hlabelled : p.labelRange = some (p.lead.length, p.lead.length + name.length) := by
        rw [Parts.labelRange, hlabel, Option.map_some]
      have hlt := hbehind _ (by rw [hlabelled, Option.map_some]; rfl)
      have hwithin := p.labelRange_within _ hlabelled
      have hbytes := bytes_le base hfront hwithin.2
      have hnot := not_le.mpr hlt
      change ¬base + utf8Len front ≤
        base + utf8Len (p.text.take (p.lead.length + name.length)) at hnot
      rw [hbytes] at hnot
      rw [Parts.bodyStart, Parts.labelText, hlabel, List.length_append, List.length_singleton]
      omega
    rw [contextAt_parts hsound hfront hslash hstart, if_neg hslash]
    have hsame : base + utf8Len front ≤ (Asm.charSpan p.text base p.mnemonicRange).stop ↔
        front.length ≤ p.mnemonicRange.2 := hstop
    simp only [hsame]
    split <;> rfl

/-- Behind `Skipcond`, its four conditions are offered. -/
theorem completion_reads_skipcond :
    completion (.new "é, Skipcond C00 / or".toList) ⟨0, 12⟩ .utf16 =
      some (operands (.new "é, Skipcond C00 / or".toList) "skipcond".toList) := by
  have hline : AtLine "é, Skipcond C00 / or".toList "é, Skipcond C00 / or".toList 0 0 :=
    ⟨by decide +kernel, by decide +kernel⟩
  obtain ⟨offset, hoffset, hanswer⟩ := completion_reads hline
    (show Asm.splitLine "é, Skipcond C00 / or".toList 0 =
      .statement (some ⟨0, 2⟩) ⟨4, 12⟩ (some ⟨13, 16⟩) (some ⟨17, 21⟩) by decide +kernel)
    (by decide +kernel) (by decide +kernel) .utf16 12
  obtain rfl : offset = 13 := by
    rw [show (positionsOf "é, Skipcond C00 / or".toList .utf16).offset ⟨0, 12⟩ = some 13 by
      decide +kernel, Option.some.injEq] at hoffset
    exact hoffset.symm
  rw [hanswer (by decide)]
  decide +kernel

end MarieRs.Lsp
