import MarieRs.Lsp.Columns

namespace MarieRs.Lsp

open Asm (Span LineIndex AtLine joined line_span lineStart_eq lineCount_eq)
open Lib.Splice (walk)

/-- The part of a line in front of a column: as little as is wide enough, or all of it. -/
structure Cuts (encoding : PositionEncoding) (character : Nat) (text front : Str) : Prop where
  within : front <+: text
  wide : front = text ∨ character ≤ encoding.measure front
  least : ∀ shorter, shorter <+: front → shorter ≠ front → encoding.measure shorter < character

theorem measure_append (encoding : PositionEncoding) (s t : Str) :
    encoding.measure (s ++ t) = encoding.measure s + encoding.measure t := by
  cases encoding <;> simp [PositionEncoding.measure]

/-- The search for a column cuts the line there. -/
theorem column_cuts (encoding : PositionEncoding) {character : Nat} {before text : Str}
    (hleast : ∀ shorter, shorter <+: before → shorter ≠ before →
      encoding.measure shorter < character) (byte : Nat) :
    ∃ front, Cuts encoding character (before ++ text) (before ++ front) ∧
      (match Positions.column encoding character (encoding.measure before) byte text with
        | some byte => byte
        | none => byte + utf8Len text) = byte + utf8Len front := by
  induction text generalizing before byte with
  | nil =>
    refine ⟨[], ⟨List.prefix_refl _, .inl rfl, ?_⟩, rfl⟩
    rw [List.append_nil]
    exact hleast
  | cons c rest ih =>
    rw [Positions.column]
    by_cases hwide : encoding.measure before ≥ character
    · refine ⟨[], ⟨?_, .inr ?_, ?_⟩, ?_⟩
      · rw [List.append_nil]
        exact List.prefix_append _ _
      · rw [List.append_nil]
        exact hwide
      · rw [List.append_nil]
        exact hleast
      · rw [if_pos hwide]
        rfl
    · have hnext : ∀ shorter, shorter <+: before ++ [c] → shorter ≠ before ++ [c] →
          encoding.measure shorter < character := by
        intro shorter hshorter hne
        rcases List.prefix_concat_iff.mp hshorter with heq | hshorter
        · exact absurd heq hne
        · by_cases heq : shorter = before
          · rw [heq]
            exact not_le.mp hwide
          · exact hleast shorter hshorter heq
      obtain ⟨front, hcuts, hbyte⟩ := ih hnext (byte + c.utf8Size)
      refine ⟨c :: front, ?_, ?_⟩
      · simpa using hcuts
      · rw [if_neg hwide, ← encoding.measure_append_singleton, utf8Len_cons, utf8Len_cons,
          ← Nat.add_assoc, ← Nat.add_assoc]
        exact hbyte

theorem column_within (encoding : PositionEncoding) (character : Nat) (text : Str) :
    ∃ front, Cuts encoding character text front ∧
      (match Positions.column encoding character 0 0 text with
        | some byte => byte
        | none => utf8Len text) = utf8Len front := by
  have hleast : ∀ shorter, shorter <+: ([] : Str) → shorter ≠ [] →
      encoding.measure shorter < character := by
    intro shorter hshorter hne
    exact absurd (List.prefix_nil.mp hshorter) hne
  obtain ⟨front, hcuts, hbyte⟩ := @column_cuts encoding character [] text hleast 0
  rw [encoding.measure_nil, Nat.zero_add, Nat.zero_add] at hbyte
  exact ⟨front, hcuts, hbyte⟩

/-- Cuts of one line are in the order of their columns. -/
theorem Cuts.mono {encoding : PositionEncoding} {character character' : Nat}
    {text front front' : Str} (h : Cuts encoding character text front)
    (h' : Cuts encoding character' text front') (hle : character ≤ character') :
    front <+: front' := by
  rcases List.prefix_or_prefix_of_prefix h.within h'.within with hfront | hfront
  · exact hfront
  · by_cases heq : front' = front
    · rw [heq]
    · have hlt := h.least front' hfront heq
      rcases h'.wide with rfl | hwide
      · exact h.within
      · omega

/-- The column that a part of a line leads to cuts it off. -/
theorem Cuts.of_measure (encoding : PositionEncoding) {text front : Str} (h : front <+: text) :
    Cuts encoding (encoding.measure front) text front := by
  refine ⟨h, .inr le_rfl, ?_⟩
  rintro shorter ⟨rest, rfl⟩ hne
  cases rest with
  | nil => exact absurd (List.append_nil _).symm hne
  | cons c rest =>
    have hpos := encoding.width_pos c
    have hcons : shorter ++ c :: rest = shorter ++ [c] ++ rest := by simp
    rw [hcons, measure_append, encoding.measure_append_singleton]
    omega

/-- The converter for a source. -/
def positionsOf (source : Str) (encoding : PositionEncoding) : Positions :=
  ⟨source, .new source, encoding⟩

variable {source text : Str} {number base : Nat}

/-- A position on a line is the byte where its column cuts the line. -/
theorem offset_line (encoding : PositionEncoding) (h : AtLine source text number base)
    (character : Nat) : ∃ front, Cuts encoding character text front ∧
      (positionsOf source encoding).offset ⟨number, character⟩ = some (base + utf8Len front) := by
  obtain ⟨hstart, hstop⟩ := line_span h
  obtain ⟨rest, hsource⟩ := h.split
  obtain ⟨front, hcuts, hbyte⟩ := column_within encoding character text
  refine ⟨front, hcuts, ?_⟩
  have hslice := sliceBytes_append (joined ((source.splitOn '\n').take number)) text rest
  rw [← hsource, ← h.base] at hslice
  simp only [positionsOf, Positions.offset, hstart, hstop, hslice, Option.map_some]
  cases hcolumn : Positions.column encoding character 0 0 text with
  | some byte =>
    rw [hcolumn] at hbyte
    rw [← hbyte]
  | none =>
    rw [hcolumn] at hbyte
    rw [← hbyte]

theorem line_exists (h : number < (LineIndex.new source).lineCount) :
    ∃ text base, AtLine source text number base := by
  rw [lineCount_eq] at h
  exact ⟨_, _, List.getElem?_eq_getElem h, rfl⟩

theorem offset_none (encoding : PositionEncoding) {position : Position}
    (h : ¬ position.line < (LineIndex.new source).lineCount) :
    (positionsOf source encoding).offset position = none := by
  rw [lineCount_eq] at h
  have hstart := lineStart_eq source position.line
  rw [if_neg h] at hstart
  simp only [positionsOf, Positions.offset, hstart]

theorem offset_exists (encoding : PositionEncoding) {position : Position} {i : Nat}
    (h : (positionsOf source encoding).offset position = some i) :
    ∃ text base front, AtLine source text position.line base ∧
      Cuts encoding position.character text front ∧ i = base + utf8Len front := by
  by_cases hline : position.line < (LineIndex.new source).lineCount
  · obtain ⟨text, base, hat⟩ := line_exists hline
    obtain ⟨front, hcuts, hoffset⟩ := offset_line encoding hat position.character
    have hsame := h.symm.trans hoffset
    rw [Option.some.injEq] at hsame
    exact ⟨text, base, front, hat, hcuts, hsame⟩
  · rw [offset_none encoding hline] at h
    cases h

theorem utf8Len_le_of_prefix {s t : Str} (h : s <+: t) : utf8Len s ≤ utf8Len t := by
  obtain ⟨rest, rfl⟩ := h
  rw [utf8Len_append]
  omega

/-- A column further on, or a line further down, is not a byte further up. -/
theorem offset_mono (encoding : PositionEncoding) {p q : Position} {i j : Nat} (hle : p ≤ q)
    (hp : (positionsOf source encoding).offset p = some i)
    (hq : (positionsOf source encoding).offset q = some j) : i ≤ j := by
  obtain ⟨text, base, front, hat, hcuts, rfl⟩ := offset_exists encoding hp
  obtain ⟨text', base', front', hat', hcuts', rfl⟩ := offset_exists encoding hq
  have hlex : toLex (p.line, p.character) ≤ toLex (q.line, q.character) := hle
  rw [Prod.Lex.toLex_le_toLex] at hlex
  rcases hlex with hline | ⟨hline, hcharacter⟩
  · have htake : joined ((source.splitOn '\n').take (p.line + 1)) <+:
        joined ((source.splitOn '\n').take q.line) := by
      obtain ⟨rest, hrest⟩ :=
        List.take_prefix_take_left (l := source.splitOn '\n') (Nat.succ_le_of_lt hline)
      exact ⟨joined rest, by rw [← hrest, joined, joined, joined, List.flatMap_append]⟩
    have hbases := utf8Len_le_of_prefix htake
    rw [Asm.joined_take_succ hat.line, ← hat.base, ← hat'.base] at hbases
    have hfront := utf8Len_le_of_prefix hcuts.within
    omega
  · simp only at hline hcharacter
    have htext : text = text' := by
      have hsame := hat.line
      rw [hline, hat'.line] at hsame
      exact (Option.some.inj hsame).symm
    have hbase : base = base' := by rw [hat.base, hat'.base, hline]
    subst htext
    have hfront := utf8Len_le_of_prefix (hcuts.mono hcuts' hcharacter)
    omega

/-- Any beginning of a text is a number of whole lines and the beginning of the next. -/
theorem front_line (lines : List Str) (hne : lines ≠ []) {before after : Str}
    (h : before ++ after = List.intercalate ['\n'] lines) :
    ∃ number text front, lines[number]? = some text ∧ front <+: text ∧
      before = joined (lines.take number) ++ front := by
  induction lines generalizing before with
  | nil => exact absurd rfl hne
  | cons first rest ih =>
    cases rest with
    | nil =>
      refine ⟨0, first, before, rfl, ⟨after, ?_⟩, rfl⟩
      rw [h]
      simp [List.intercalate]
    | cons next rest =>
      rw [Asm.intercalate_cons] at h
      rcases List.append_eq_append_iff.mp h with ⟨cut, hfirst, -⟩ | ⟨cut, hbefore, hcut⟩
      · exact ⟨0, first, before, rfl, ⟨cut, hfirst.symm⟩, rfl⟩
      · cases cut with
        | nil => exact ⟨0, first, first, rfl, List.prefix_refl _, by simp [hbefore, joined]⟩
        | cons c cut =>
          rw [List.cons_append, List.cons.injEq] at hcut
          obtain ⟨rfl, hcut⟩ := hcut
          obtain ⟨number, text, front, htext, hfront, rfl⟩ := ih (by simp) hcut.symm
          refine ⟨number + 1, text, front, htext, hfront, ?_⟩
          rw [hbefore, List.take_succ_cons, Asm.joined_cons]
          simp

theorem walk_joined (encoding : PositionEncoding) {lines : List Str}
    (h : ∀ line ∈ lines, '\n' ∉ line) (number : Nat) :
    walk (advance encoding) ⟨number, 0⟩ (joined lines) = ⟨number + lines.length, 0⟩ := by
  induction lines generalizing number with
  | nil => rfl
  | cons first rest ih =>
    rw [Asm.joined_cons, Lib.Splice.walk_append, walk_rest (h first (by simp)), Lib.Splice.walk_cons,
      advance, if_pos rfl, ih fun line hline => h line (List.mem_cons_of_mem _ hline)]
    simp only [List.length_cons, Position.mk.injEq, and_true]
    omega

/-- A byte of a line is at the column that the line has up to there. -/
theorem position_line (encoding : PositionEncoding) (h : AtLine source text number base)
    {front : Str} (hfront : front <+: text) :
    (positionsOf source encoding).position (base + utf8Len front) =
      ⟨number, encoding.measure front⟩ := by
  obtain ⟨cut, hcut⟩ := hfront
  obtain ⟨rest, hsource⟩ := h.split
  have hlines : ∀ line ∈ (source.splitOn '\n').take number, '\n' ∉ line :=
    fun _ hline => Asm.splitOn_line (List.mem_of_mem_take hline)
  have hrest : '\n' ∉ front := by
    have hline := Asm.splitOn_line (List.mem_of_getElem? h.line)
    rw [← hcut, List.mem_append, not_or] at hline
    exact hline.1
  have hlength : ((source.splitOn '\n').take number).length = number := by
    rw [List.length_take]
    exact Nat.min_eq_left (List.getElem?_eq_some_iff.mp h.line).1.le
  have hsplit :
      source = (joined ((source.splitOn '\n').take number) ++ front) ++ (cut ++ rest) := by
    conv_lhs => rw [hsource, ← hcut]
    simp only [List.append_assoc]
  have hwalk := position_walk encoding
    (joined ((source.splitOn '\n').take number) ++ front) (cut ++ rest)
  rw [← hsplit, utf8Len_append, ← h.base, Lib.Splice.walk_append, walk_joined encoding hlines,
    hlength, Nat.zero_add, walk_rest hrest] at hwalk
  exact hwalk

/-- Every boundary of a character comes back from its position. -/
theorem offset_position (encoding : PositionEncoding) (before after : Str) :
    (positionsOf (before ++ after) encoding).offset
      ((positionsOf (before ++ after) encoding).position (utf8Len before)) =
        some (utf8Len before) := by
  have hjoin : List.intercalate ['\n'] ((before ++ after).splitOn '\n') = before ++ after :=
    List.intercalate_splitOn '\n'
  obtain ⟨number, text, front, htext, hfront, hbefore⟩ :=
    front_line _ (List.splitOn_ne_nil _ _) hjoin.symm
  have hat : AtLine (before ++ after) text number
      (utf8Len (joined (((before ++ after).splitOn '\n').take number))) := ⟨htext, rfl⟩
  have hlength : utf8Len before =
      utf8Len (joined (((before ++ after).splitOn '\n').take number)) + utf8Len front := by
    conv_lhs => rw [hbefore]
    rw [utf8Len_append]
  obtain ⟨cut, hcuts, hoffset⟩ := offset_line encoding hat (encoding.measure front)
  have hsame : cut = front :=
    (hcuts.mono (.of_measure encoding hfront) le_rfl).eq_of_length_le
      ((Cuts.of_measure encoding hfront).mono hcuts le_rfl).length_le
  rw [hlength, position_line encoding hat hfront, hoffset, hsame]

theorem offset_le (encoding : PositionEncoding) {position : Position} {i : Nat}
    (h : (positionsOf source encoding).offset position = some i) : i ≤ utf8Len source := by
  obtain ⟨text, base, front, hat, hcuts, rfl⟩ := offset_exists encoding h
  obtain ⟨rest, hsource⟩ := hat.split
  have hfront := utf8Len_le_of_prefix hcuts.within
  have hlength := congrArg utf8Len hsource
  rw [utf8Len_append, utf8Len_append, ← hat.base] at hlength
  omega

theorem offsetClamped_le (source : Str) (encoding : PositionEncoding) (position : Position) :
    (positionsOf source encoding).offsetClamped position ≤ utf8Len source := by
  unfold Positions.offsetClamped
  split
  · rename_i hoffset
    exact offset_le encoding hoffset
  · split
    · exact le_rfl
    · exact Nat.zero_le _

/-- Positions are exact in every encoding: boundaries come back from their positions, a
position is where its column cuts its line, positions and bytes are in the same order, and a
clamped range is a span of the document. -/
theorem positions_exact (source : Str) (encoding : PositionEncoding) :
    let positions := positionsOf source encoding
    (∀ before after, source = before ++ after →
      positions.offset (positions.position (utf8Len before)) = some (utf8Len before)) ∧
    (∀ position : Position, position.line < positions.lines.lineCount →
      ∃ text base front, AtLine source text position.line base ∧
        Cuts encoding position.character text front ∧
        positions.offset position = some (base + utf8Len front)) ∧
    (∀ p q i j, p ≤ q → positions.offset p = some i → positions.offset q = some j → i ≤ j) ∧
    ∀ range, (positions.spanClamped range).start ≤ (positions.spanClamped range).stop ∧
      (positions.spanClamped range).stop ≤ utf8Len source := by
  refine ⟨?_, ?_, fun _ _ _ _ => offset_mono encoding, ?_⟩
  · rintro before after rfl
    exact offset_position encoding before after
  · intro position hline
    obtain ⟨text, base, hat⟩ := line_exists hline
    obtain ⟨front, hcuts, hoffset⟩ := offset_line encoding hat position.character
    exact ⟨text, base, front, hat, hcuts, hoffset⟩
  · intro range
    exact ⟨min_le_max, max_le (offsetClamped_le source encoding range.start)
      (offsetClamped_le source encoding range.stop)⟩

end MarieRs.Lsp
