import MarieRs.Asm.Tokens
import MarieRs.Lsp.Offsets

namespace MarieRs.Lsp

open Asm (Token TokenKind tokenize AtLine SpanAt)

/-- A token relative to the one before it, as the protocol sends it. -/
structure SemanticToken where
  deltaLine : Nat
  deltaStart : Nat
  length : Nat
  tokenType : Nat
  tokenModifiersBitset : Nat
  deriving DecidableEq, Repr

def KEYWORD : Nat := 0
def FUNCTION : Nat := 1
def VARIABLE : Nat := 2
def NUMBER : Nat := 3
def COMMENT : Nat := 4
def OPERATOR : Nat := 5

/-- The one modifier used: a label's own definition. -/
def DECLARATION : Nat := 1

/-- The type and the modifiers of a token, unless it is left to the client. -/
def tokenType (document : Document) (token : Token) : Option (Nat × Nat) :=
  match token.kind with
  | .label => some (FUNCTION, DECLARATION)
  | .comma => some (OPERATOR, 0)
  | .originKeyword | .mnemonic => some (KEYWORD, 0)
  | .operand =>
    let text := (token.span.text document.text).getD []
    if (text.head?).any isAsciiDigit then some (NUMBER, 0)
    else if document.assembly.symbols.contains text then some (FUNCTION, 0)
    else some (VARIABLE, 0)
  | .comment => some (COMMENT, 0)
  | .unknown => none

/-- Subtraction of unsigned numbers, unless it underflows. -/
def checkedSub (a b : Nat) : Option Nat := if b ≤ a then some (a - b) else none

/-- A position relative to an earlier one: the column only counts from there on the
same line. -/
def relative (previous start : Position) : Option (Nat × Nat) :=
  match checkedSub start.line previous.line with
  | none => none
  | some deltaLine =>
    if deltaLine = 0 then
      (checkedSub start.character previous.character).map fun deltaStart => (deltaLine, deltaStart)
    else some (deltaLine, start.character)

/-- The loop over the tokens; none if a subtraction underflows. -/
def encodeTokens (document : Document) (positions : Positions) :
    Position → List Token → Option (List SemanticToken)
  | _, [] => some []
  | previous, token :: rest =>
    match tokenType document token with
    | none => encodeTokens document positions previous rest
    | some (kind, modifiers) =>
      let start := positions.position token.span.start
      let length := positions.length token.span
      if length = 0 then encodeTokens document positions previous rest
      else
        match relative previous start with
        | none => none
        | some (deltaLine, deltaStart) =>
          (encodeTokens document positions start rest).map
            (⟨deltaLine, deltaStart, length, kind, modifiers⟩ :: ·)

def semanticTokens (document : Document) (encoding : PositionEncoding) :
    Option (List SemanticToken) :=
  encodeTokens document (document.positions encoding) ⟨0, 0⟩ (tokenize document.text)

/-- Where a token starts, and how long it is. -/
structure Shown where
  start : Position
  length : Nat
  deriving DecidableEq, Repr

/-- Lines add up, and columns start over on a new line. -/
def decode : Position → List SemanticToken → List Shown
  | _, [] => []
  | previous, token :: rest =>
    let start : Position := ⟨previous.line + token.deltaLine,
      if token.deltaLine = 0 then previous.character + token.deltaStart else token.deltaStart⟩
    ⟨start, token.length⟩ :: decode start rest

theorem tokenType_none {document : Document} {token : Token} :
    tokenType document token = none ↔ token.kind = .unknown := by
  simp only [tokenType]
  cases token.kind with
  | operand => split_ifs <;> simp
  | label | comma | originKeyword | mnemonic | comment | unknown => simp

theorem relative_some {previous start : Position} (h : previous ≤ start) :
    ∃ deltaLine deltaStart, relative previous start = some (deltaLine, deltaStart) ∧
      (⟨previous.line + deltaLine,
        if deltaLine = 0 then previous.character + deltaStart else deltaStart⟩ : Position) =
          start := by
  have hlex : toLex (previous.line, previous.character) ≤ toLex (start.line, start.character) := h
  rw [Prod.Lex.toLex_le_toLex] at hlex
  obtain ⟨line, character⟩ := start
  simp only at hlex
  rcases hlex with hline | ⟨hline, hcharacter⟩
  · refine ⟨line - previous.line, character, ?_, ?_⟩
    · rw [relative, checkedSub, if_pos hline.le]
      simp only
      rw [if_neg (by omega)]
    · rw [if_neg (by omega)]
      congr 1
      omega
  · refine ⟨0, character - previous.character, ?_, ?_⟩
    · rw [relative, checkedSub, if_pos hline.le, hline]
      simp only [Nat.sub_self, if_true, checkedSub, if_pos hcharacter, Option.map_some]
    · rw [if_pos rfl]
      congr 1
      omega

theorem Position.zero_le (position : Position) : ⟨0, 0⟩ ≤ position := by
  have hlex : toLex ((0, 0) : Nat × Nat) ≤ toLex (position.line, position.character) := by
    rw [Prod.Lex.toLex_le_toLex]
    rcases Nat.eq_zero_or_pos position.line with hzero | hpos
    · exact .inr ⟨hzero.symm, Nat.zero_le _⟩
    · exact .inl hpos
  exact hlex

/-- What is shown of a token. -/
def shown (positions : Positions) (token : Token) : Shown :=
  ⟨positions.position token.span.start, positions.length token.span⟩

/-- Whatever comes in the order of its positions is decoded to where it was. -/
theorem decode_encodeTokens (document : Document) {positions : Positions} {tokens : List Token}
    {previous : Position} (hlength : ∀ token ∈ tokens, positions.length token.span ≠ 0)
    (hfirst : ∀ token ∈ tokens, previous ≤ positions.position token.span.start)
    (hordered : tokens.Pairwise fun token token' =>
      positions.position token.span.start ≤ positions.position token'.span.start) :
    ∃ data, encodeTokens document positions previous tokens = some data ∧
      decode previous data =
        (tokens.filter fun token => token.kind ≠ .unknown).map (shown positions) := by
  induction tokens generalizing previous with
  | nil => exact ⟨[], rfl, rfl⟩
  | cons token rest ih =>
    have hrest := List.pairwise_cons.mp hordered
    have hlengths : ∀ token ∈ rest, positions.length token.span ≠ 0 :=
      fun other hother => hlength other (List.mem_cons_of_mem _ hother)
    rw [encodeTokens]
    cases hkind : tokenType document token with
    | none =>
      have hunknown := tokenType_none.mp hkind
      obtain ⟨data, hdata, hdecode⟩ := ih hlengths
        (fun other hother => hfirst other (List.mem_cons_of_mem _ hother)) hrest.2
      exact ⟨data, hdata, by rw [hdecode, List.filter_cons_of_neg (by simp [hunknown])]⟩
    | some found =>
      obtain ⟨kind, modifiers⟩ := found
      have hknown : token.kind ≠ .unknown := by
        intro hunknown
        rw [tokenType_none.mpr hunknown] at hkind
        cases hkind
      obtain ⟨deltaLine, deltaStart, hrelative, hstart⟩ :=
        relative_some (hfirst token List.mem_cons_self)
      obtain ⟨data, hdata, hdecode⟩ := ih hlengths hrest.1 hrest.2
      simp only [if_neg (hlength token List.mem_cons_self), hrelative, hdata, Option.map_some]
      refine ⟨_, rfl, ?_⟩
      rw [decode, List.filter_cons_of_pos (by simp [hknown]), List.map_cons, ← hdecode]
      simp only [hstart]
      rfl

/-- A token is shown on its line, in the columns of its text. -/
def Shows (source : Str) (encoding : PositionEncoding) (token : Token) (s : Shown) : Prop :=
  ∃ number base before piece after, SpanAt source number base before piece after token.span ∧
    s = ⟨⟨number, encoding.measure before⟩, encoding.measure piece⟩

variable {source : Str}

theorem shows_shown (encoding : PositionEncoding) {token : Token} (h : token ∈ tokenize source) :
    Shows source encoding token (shown (positionsOf source encoding) token) ∧
      (positionsOf source encoding).length token.span ≠ 0 := by
  obtain ⟨number, base, before, piece, after, hspan, hne, -⟩ := Asm.tokenize_spanAt h
  have hlength : (positionsOf source encoding).length token.span = encoding.measure piece := by
    rw [Positions.length]
    simp only [positionsOf, hspan.text, Option.getD_some]
  have hstart : token.span.start = base + utf8Len before := by rw [hspan.span]
  have hposition := position_line encoding hspan.line (List.prefix_append before _)
  rw [← hstart] at hposition
  refine ⟨⟨number, base, before, piece, after, hspan, ?_⟩, ?_⟩
  · rw [shown, hposition, hlength]
  · rw [hlength]
    obtain ⟨c, rest, rfl⟩ := List.exists_cons_of_ne_nil hne
    have hpos := encoding.width_pos c
    have hmeasure := encoding.measure_append_singleton [] c
    have hcons : c :: rest = ([] ++ [c]) ++ rest := rfl
    rw [hcons, measure_append, hmeasure]
    omega

theorem Shows.within {encoding : PositionEncoding} {token : Token} {s : Shown}
    (h : Shows source encoding token s) :
    ∃ line, (source.splitOn '\n')[s.start.line]? = some line ∧
      s.start.character + s.length ≤ encoding.measure line := by
  obtain ⟨number, base, before, piece, after, hspan, rfl⟩ := h
  refine ⟨_, hspan.line.line, ?_⟩
  rw [measure_append, measure_append]
  simp only
  omega

/-- One token is shown before another. -/
def Shown.Before (s s' : Shown) : Prop :=
  s.start.line < s'.start.line ∨
    s.start.line = s'.start.line ∧ s.start.character + s.length ≤ s'.start.character

theorem shows_before {encoding : PositionEncoding} {token token' : Token} {s s' : Shown}
    (h : Shows source encoding token s) (h' : Shows source encoding token' s')
    (hle : token.span.stop ≤ token'.span.start) : s.Before s' := by
  obtain ⟨number, base, before, piece, after, hspan, rfl⟩ := h
  obtain ⟨number', base', before', piece', after', hspan', rfl⟩ := h'
  rcases hspan.order hspan' hle with hlt | ⟨rfl, rest, hrest⟩
  · exact .inl hlt
  · refine .inr ⟨rfl, ?_⟩
    rw [← hrest, measure_append, measure_append]
    simp only
    omega

theorem Shown.Before.le {s s' : Shown} (h : s.Before s') : s.start ≤ s'.start := by
  have hlex : toLex (s.start.line, s.start.character) ≤
      toLex (s'.start.line, s'.start.character) := by
    rw [Prod.Lex.toLex_le_toLex]
    rcases h with hlt | ⟨heq, hle⟩
    · exact .inl hlt
    · exact .inr ⟨heq, Nat.le_trans (Nat.le_add_right _ _) hle⟩
  exact hlex

/-- Semantic tokens decode to what was lexed: no subtraction underflows, every token that is
not unknown is shown in order where it is, and what is shown keeps to its line and does not
overlap. -/
theorem semanticTokens_decode (text : Str) (encoding : PositionEncoding) :
    ∃ data, semanticTokens (.new text) encoding = some data ∧
      List.Forall₂ (Shows text encoding)
        ((tokenize text).filter fun token => token.kind ≠ .unknown) (decode ⟨0, 0⟩ data) ∧
      (decode ⟨0, 0⟩ data).Pairwise Shown.Before ∧
      ∀ s ∈ decode ⟨0, 0⟩ data, ∃ line, (text.splitOn '\n')[s.start.line]? = some line ∧
        s.start.character + s.length ≤ encoding.measure line := by
  have hshows := fun token (ht : token ∈ tokenize text) => shows_shown encoding ht
  have hbefore : ((tokenize text).map (shown (positionsOf text encoding))).Pairwise
      Shown.Before := by
    rw [List.pairwise_map]
    refine (Asm.tokenize_ordered text).imp_of_mem fun ht ht' hle => ?_
    exact shows_before (hshows _ ht).1 (hshows _ ht').1 hle
  obtain ⟨data, hdata, hdecode⟩ := decode_encodeTokens (.new text)
    (fun token ht => (hshows token ht).2) (fun token _ => Position.zero_le _)
    ((List.pairwise_map.mp hbefore).imp Shown.Before.le)
  refine ⟨data, hdata, ?_, ?_, ?_⟩
  · rw [hdecode, List.forall₂_map_right_iff, List.forall₂_same]
    intro token ht
    exact (hshows token (List.mem_of_mem_filter ht)).1
  · rw [hdecode]
    exact hbefore.sublist (List.filter_sublist.map _)
  · intro s hs
    rw [hdecode] at hs
    obtain ⟨token, ht, rfl⟩ := List.mem_map.mp hs
    exact (hshows token (List.mem_of_mem_filter ht)).1.within

end MarieRs.Lsp
