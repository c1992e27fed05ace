import MarieRs.Asm.Ignored
import MarieRs.Asm.Tokens

namespace MarieRs.Asm

/-- The letters that have a lower case: what holds of all of them can be checked. -/
def UPPERCASE : Str := "ABCDEFGHIJKLMNOPQRSTUVWXYZ".toList

theorem toLower_eq_self {c : Char} (h : c ∉ UPPERCASE) : c.toLower = c := by
  rw [Char.toLower]
  split
  · rename_i hupper
    have hc : Char.ofNat c.toNat = c := Char.ofNat_toNat c
    have hall : ∀ n < 91, 65 ≤ n → Char.ofNat n ∈ UPPERCASE := by decide
    obtain ⟨hle, hge⟩ := hupper
    have hle' : 65 ≤ c.toNat := UInt32.le_iff_toNat_le.mp hle
    have hge' : c.toNat ≤ 90 := UInt32.le_iff_toNat_le.mp hge
    exact absurd (hc ▸ hall c.toNat (by omega) hle') h
  · rfl

theorem toLower_class {β : Type} [DecidableEq β] (f : Char → β)
    (hf : UPPERCASE.all (fun c => f c.toLower == f c) = true) (c : Char) : f c.toLower = f c := by
  by_cases hc : c ∈ UPPERCASE
  · exact eq_of_beq (List.all_eq_true.mp hf c hc)
  · rw [toLower_eq_self hc]

/-- A property of characters that does not depend on their case. -/
def Caseless (p : Char → Bool) : Prop := ∀ c, p c.toLower = p c

theorem caseless_whitespace : Caseless isWhitespace := toLower_class isWhitespace (by decide)

theorem caseless_wordChar : Caseless isWordChar := toLower_class isWordChar (by decide)

theorem caseless_bare : Caseless isBare := toLower_class isBare (by decide)

theorem caseless_labelChar : Caseless isLabelChar := toLower_class isLabelChar (by decide)

theorem caseless_hexdigit : Caseless isAsciiHexdigit := toLower_class isAsciiHexdigit (by decide)

theorem toLower_eq_iff {d : Char}
    (hd : UPPERCASE.all (fun c => (c.toLower == d) == (c == d)) = true)
    (c : Char) : c.toLower = d ↔ c = d := by
  by_cases hc : c ∈ UPPERCASE
  · have heq := eq_of_beq (List.all_eq_true.mp hd c hc)
    rw [← beq_iff_eq, ← beq_iff_eq (a := c), heq]
  · rw [toLower_eq_self hc]

section Lowercase
variable {p : Char → Bool}

theorem takeWhile_lower (hp : Caseless p) (s : Str) :
    (toAsciiLowercase s).takeWhile p = toAsciiLowercase (s.takeWhile p) := by
  have hcomp : p ∘ Char.toLower = p := funext hp
  rw [toAsciiLowercase, List.takeWhile_map, hcomp]
  rfl

theorem dropWhile_lower (hp : Caseless p) (s : Str) :
    (toAsciiLowercase s).dropWhile p = toAsciiLowercase (s.dropWhile p) := by
  have hcomp : p ∘ Char.toLower = p := funext hp
  rw [toAsciiLowercase, List.dropWhile_map, hcomp]
  rfl

theorem all_lower (hp : Caseless p) (s : Str) : (toAsciiLowercase s).all p = s.all p := by
  have hcomp : p ∘ Char.toLower = p := funext hp
  rw [toAsciiLowercase, List.all_map, hcomp]

end Lowercase

@[simp] theorem length_lower (s : Str) : (toAsciiLowercase s).length = s.length :=
  List.length_map _

@[simp] theorem lower_eq_nil {s : Str} : toAsciiLowercase s = [] ↔ s = [] := List.map_eq_nil_iff

theorem utf8Len_lower (s : Str) : utf8Len (toAsciiLowercase s) = utf8Len s := by
  have hcomp : Char.utf8Size ∘ Char.toLower = Char.utf8Size :=
    funext (toLower_class Char.utf8Size (by decide))
  rw [utf8Len, utf8Len, toAsciiLowercase, List.map_map, hcomp]

theorem isTail_lower (s : Str) : isTail (toAsciiLowercase s) = isTail s := by
  rw [isTail, isTail, dropWhile_lower caseless_whitespace]
  cases s.dropWhile isWhitespace with
  | nil => rfl
  | cons c rest => exact toLower_class (fun c => c == '/') (by decide) c

theorem lexWord_lower (s : Str) : lexWord (toAsciiLowercase s) =
    (lexWord s).map fun found => (toAsciiLowercase found.1, toAsciiLowercase found.2) := by
  cases s with
  | nil => rfl
  | cons c s =>
    have hcons : toAsciiLowercase (c :: s) = c.toLower :: toAsciiLowercase s := rfl
    rw [hcons, lexWord, lexWord, caseless_wordChar c, takeWhile_lower caseless_bare,
      dropWhile_lower caseless_bare]
    split <;> rfl

theorem lexOperand_lower (s : Str) : lexOperand (toAsciiLowercase s) =
    (lexOperand s).map fun found =>
      (found.1.map fun operand => (toAsciiLowercase operand.1, toAsciiLowercase operand.2),
        toAsciiLowercase found.2) := by
  rw [lexOperand, lexOperand, takeWhile_lower caseless_whitespace,
    dropWhile_lower caseless_whitespace, lexWord_lower, isTail_lower]
  simp only [lower_eq_nil]
  by_cases hgap : s.takeWhile isWhitespace = []
  · simp only [if_pos hgap]
    split <;> rfl
  · simp only [if_neg hgap]
    cases lexWord (s.dropWhile isWhitespace) with
    | none =>
      simp only [Option.map_none]
      split <;> rfl
    | some found =>
      simp only [Option.map_some, isTail_lower]
      cases isTail found.2 with
      | true => rfl
      | false =>
        simp only [Bool.false_eq_true, if_false]
        split <;> rfl

def Body.lower (b : Body) : Body :=
  ⟨toAsciiLowercase b.gap, toAsciiLowercase b.mnemonic,
    b.operand.map fun operand => (toAsciiLowercase operand.1, toAsciiLowercase operand.2),
    toAsciiLowercase b.tail⟩

def Parts.lower (p : Parts) : Parts :=
  ⟨toAsciiLowercase p.lead, p.label.map toAsciiLowercase, p.body.lower⟩

theorem lexBody_lower (s : Str) : lexBody (toAsciiLowercase s) = (lexBody s).map Body.lower := by
  rw [lexBody, lexBody, takeWhile_lower caseless_whitespace, dropWhile_lower caseless_whitespace,
    lexWord_lower]
  cases lexWord (s.dropWhile isWhitespace) with
  | none => rfl
  | some found =>
    simp only [Option.map_some, lexOperand_lower, Option.map_map]
    rfl

theorem lexLabel_lower (s : Str) : lexLabel (toAsciiLowercase s) =
    (lexLabel s).map fun found => (toAsciiLowercase found.1, toAsciiLowercase found.2) := by
  rw [lexLabel, lexLabel, takeWhile_lower caseless_labelChar, dropWhile_lower caseless_labelChar]
  cases s.dropWhile isLabelChar with
  | nil => rfl
  | cons c rest =>
    have hcons : toAsciiLowercase (c :: rest) = c.toLower :: toAsciiLowercase rest := rfl
    rw [hcons]
    by_cases hc : c = ','
    · subst hc
      have hcomma : ','.toLower = ',' := by decide
      simp only [hcomma, lower_eq_nil]
      split <;> rfl
    · have hlower : c.toLower ≠ ',' := fun h => hc ((toLower_eq_iff (by decide) c).mp h)
      split
      · rename_i heq
        exact absurd (List.cons.inj heq).1 hlower
      · split
        · rename_i heq
          exact absurd (List.cons.inj heq).1 hc
        · rfl

theorem lexLine_lower (text : Str) :
    lexLine (toAsciiLowercase text) = (lexLine text).map Parts.lower := by
  rw [lexLine, lexLine]
  simp only [takeWhile_lower caseless_whitespace, dropWhile_lower caseless_whitespace,
    lexLabel_lower, lexBody_lower]
  have hplain : ∀ body : Option Body, (body.map Body.lower).map
      (fun body => (⟨toAsciiLowercase (text.takeWhile isWhitespace), none, body⟩ : Parts)) =
        (body.map fun body => (⟨text.takeWhile isWhitespace, none, body⟩ : Parts)).map
          Parts.lower := by
    intro body
    cases body <;> rfl
  rw [hplain]
  cases lexLabel (text.dropWhile isWhitespace) with
  | none => rfl
  | some found =>
    simp only [Option.map_some, Option.bind_some, lexBody_lower]
    cases lexBody found.2 <;> rfl

theorem lexEarly_lower (text : Str) :
    lexEarly (toAsciiLowercase text) = (lexEarly text).map Parts.lower := by
  rw [lexEarly, lexEarly]
  simp only [takeWhile_lower caseless_whitespace, dropWhile_lower caseless_whitespace]
  have hlast : ∀ lead : Str, (toAsciiLowercase lead).getLast? = lead.getLast?.map Char.toLower :=
    fun lead => List.getLast?_map
  have hinit : ∀ lead : Str, (toAsciiLowercase lead).dropLast = toAsciiLowercase lead.dropLast :=
    fun lead => List.map_dropLast.symm
  rw [hlast, hinit]
  generalize text.takeWhile isWhitespace = lead
  cases lead.getLast? with
  | none => rfl
  | some last =>
    cases text.dropWhile isWhitespace with
    | nil => rfl
    | cons c rest =>
      have hcons : toAsciiLowercase (c :: rest) = c.toLower :: toAsciiLowercase rest := rfl
      rw [hcons]
      by_cases hc : c = ','
      · subst hc
        have hcomma : ','.toLower = ',' := by decide
        simp only [hcomma, Option.map_some, lexBody_lower]
        cases lexBody rest <;> rfl
      · have hlower : c.toLower ≠ ',' := fun h => hc ((toLower_eq_iff (by decide) c).mp h)
        split
        · rename_i heq
          exact absurd (List.cons.inj heq).1 hlower
        · split
          · rename_i heq
            exact absurd (List.cons.inj heq).1 hc
          · rfl

theorem lexStatement_lower (text : Str) :
    lexStatement (toAsciiLowercase text) = (lexStatement text).map Parts.lower := by
  rw [lexStatement, lexStatement, lexLine_lower, lexEarly_lower]
  cases lexLine text <;> rfl

theorem commentRange_lower (length : Nat) (tail : Str) :
    commentRange length (toAsciiLowercase tail) = commentRange length tail := by
  simp only [commentRange, dropWhile_lower caseless_whitespace, lower_eq_nil, length_lower]

theorem Parts.isOrigin_lower (p : Parts) : p.lower.isOrigin = p.isOrigin := by
  have hlabel : p.lower.label.isNone = p.label.isNone := Option.isNone_map
  have hoperand : p.lower.body.operand = p.body.operand.map fun operand =>
      (toAsciiLowercase operand.1, toAsciiLowercase operand.2) := rfl
  have hmnemonic : p.lower.body.mnemonic = toAsciiLowercase p.body.mnemonic := rfl
  rw [isOrigin, isOrigin, hlabel, hoperand, hmnemonic, toAsciiLowercase_idem]
  cases p.body.operand with
  | none => rfl
  | some found =>
    simp only [Option.map_some, Option.any_some, length_lower, all_lower caseless_hexdigit]

theorem Parts.ranges_lower (p : Parts) : p.lower.ranges = p.ranges := by
  obtain ⟨lead, label, gap, mnemonic, operand, tail⟩ := p
  have horigin := Parts.isOrigin_lower ⟨lead, label, gap, mnemonic, operand, tail⟩
  rw [ranges, ranges, horigin]
  cases label <;> cases operand <;>
    simp [lower, Body.lower, text, labelText, labelRange, mnemonicRange, operandRange,
      Body.mnemonicRange, Body.operandRange, Body.text, Body.operandText, bodyStart,
      commentRange_lower]

theorem rangesOf_lower (text : Str) : rangesOf (toAsciiLowercase text) = rangesOf text := by
  rw [rangesOf, rangesOf, isTail_lower, lexStatement_lower, length_lower, commentRange_lower]
  cases lexStatement text with
  | none => rfl
  | some p => simp only [Option.map_some, p.ranges_lower]

theorem charSpan_lower (text : Str) (base : Nat) :
    charSpan (toAsciiLowercase text) base = charSpan text base := by
  have htake : ∀ n, (toAsciiLowercase text).take n = toAsciiLowercase (text.take n) :=
    fun n => List.map_take.symm
  funext range
  simp only [charSpan, htake, utf8Len_lower]

theorem splitLine_lower (text : Str) (base : Nat) :
    splitLine (toAsciiLowercase text) base = splitLine text base := by
  rw [splitLine_rangesOf, splitLine_rangesOf, rangesOf_lower]
  cases rangesOf text <;> simp only [Ranges.form, charSpan_lower]

theorem lower_splitOn (source : Str) :
    (toAsciiLowercase source).splitOn '\n' = (source.splitOn '\n').map toAsciiLowercase := by
  have hne : (source.splitOn '\n').map toAsciiLowercase ≠ [] := by
    simp [List.splitOn_ne_nil]
  have hlines : ∀ line ∈ (source.splitOn '\n').map toAsciiLowercase, '\n' ∉ line := by
    intro line hline hmem
    obtain ⟨original, horiginal, rfl⟩ := List.mem_map.mp hline
    obtain ⟨c, hc, hlower⟩ := List.mem_map.mp hmem
    rw [(toLower_eq_iff (by decide) c).mp hlower] at hc
    exact splitOn_line horiginal hc
  have hjoin : ∀ lines : List Str, toAsciiLowercase (List.intercalate ['\n'] lines) =
      List.intercalate ['\n'] (lines.map toAsciiLowercase) := by
    intro lines
    induction lines with
    | nil => rfl
    | cons line rest ih =>
      cases rest with
      | nil => simp
      | cons next rest =>
        have hnewline : '\n'.toLower = '\n' := by decide
        rw [intercalate_cons, List.map_cons, List.map_cons, intercalate_cons, ← List.map_cons, ← ih]
        simp [toAsciiLowercase, hnewline]
  have hsource := hjoin (source.splitOn '\n')
  rw [List.intercalate_splitOn] at hsource
  rw [hsource, List.splitOn_intercalate '\n' hlines hne]

variable {source source' : Str}

theorem AtLine.lower {text : Str} {number base : Nat} (h : AtLine source text number base) :
    AtLine (toAsciiLowercase source) (toAsciiLowercase text) number base where
  line := by rw [lower_splitOn, List.getElem?_map, h.line, Option.map_some]
  base := by
    have hnewline : toAsciiLowercase ['\n'] = ['\n'] := by decide
    have hjoined : ∀ lines : List Str,
        joined (lines.map toAsciiLowercase) = toAsciiLowercase (joined lines) := by
      intro lines
      induction lines with
      | nil => rfl
      | cons line rest ih =>
        rw [List.map_cons, joined_cons, joined_cons, ih]
        simp [toAsciiLowercase, show '\n'.toLower = '\n' by decide]
    rw [lower_splitOn, ← List.map_take, hjoined, utf8Len_lower, h.base]

/-- Where the one source has a line, the other has the same but for the case. -/
theorem AtLine.recased {text : Str} {number base : Nat} (h : AtLine source text number base)
    (hcase : toAsciiLowercase source' = toAsciiLowercase source) :
    ∃ text', AtLine source' text' number base ∧
      toAsciiLowercase text' = toAsciiLowercase text := by
  have hlower := h.lower
  have hline := hlower.line
  rw [← hcase, lower_splitOn, List.getElem?_map] at hline
  obtain ⟨text', htext', heq⟩ := Option.map_eq_some_iff.mp hline
  have h' : AtLine source' text' number (utf8Len (joined ((source'.splitOn '\n').take number))) :=
    ⟨htext', rfl⟩
  have hlower' := h'.lower
  rw [hcase] at hlower'
  rw [← (hlower.same hlower').2] at h'
  exact ⟨text', h', heq⟩

theorem splitLine_recased {text text' : Str}
    (h : toAsciiLowercase text' = toAsciiLowercase text) (base : Nat) :
    splitLine text' base = splitLine text base := by
  rw [← splitLine_lower, h, splitLine_lower]

/-- Offsets inside a mnemonic or an `ORG` keyword. -/
def InMnemonic (source : Str) (offset : Nat) : Prop :=
  ∃ t ∈ tokenize source, (t.kind = .mnemonic ∨ t.kind = .originKeyword) ∧
    t.span.start ≤ offset ∧ offset < t.span.stop

/-- Two sources differ in nothing but the case of letters in mnemonics and `ORG` keywords. -/
structure Recased (source source' : Str) : Prop where
  lowercase : toAsciiLowercase source' = toAsciiLowercase source
  confined : ∀ i c c', source[i]? = some c → source'[i]? = some c' → c' ≠ c →
    InMnemonic source (utf8Len (source.take i))

def Item.folded (item : Item) : Item :=
  { item with mnemonic := { item.mnemonic with text := item.mnemonic.lowercase } }

def Program.folded (p : Program) : Program := { p with items := p.items.map Item.folded }

def ParseState.folded (st : ParseState) : ParseState :=
  { st with out := { st.out with program := st.out.program.folded } }

theorem Item.folded_folded (item : Item) : item.folded.folded = item.folded := rfl

theorem Program.folded_folded (p : Program) : p.folded.folded = p.folded := by
  simp only [folded, List.map_map]
  rfl

theorem ParseState.folded_folded (st : ParseState) : st.folded.folded = st.folded := by
  simp only [folded, Program.folded_folded]

theorem ParseState.reported_folded (st : ParseState) (diagnostics : List Diagnostic)
    (stopped : Bool) : ({ st.folded with diagnostics, stopped } : ParseState).folded =
      ({ st with diagnostics, stopped } : ParseState).folded := by
  simp only [folded, Program.folded_folded]

theorem nextAddress_folded (st : ParseState) : nextAddress st.folded.out = nextAddress st.out := by
  simp only [nextAddress, ParseState.folded, Program.folded, List.length_map]
  rfl

/-- The parser never looks at what it keeps there. -/
theorem parseBody_folded (source : Str) (st : ParseState) (address : MemoryAddress)
    (label : Option Span) (mnemonic : Span) (operand comment : Option Span) :
    (parseBody source st.folded address label mnemonic operand comment).folded =
      (parseBody source st address label mnemonic operand comment).folded := by
  simp only [parseBody]
  split
  · simp only [ParseState.folded, Program.folded, List.map_map]
    rfl
  · simp only [ParseState.folded, Program.folded, List.map_append, List.map_map]
    rfl

theorem parseStatement_folded (source : Str) (st : ParseState) (label : Option Span)
    (mnemonic : Span) (operand comment : Option Span) :
    (parseStatement source st.folded label mnemonic operand comment).folded =
      (parseStatement source st label mnemonic operand comment).folded := by
  rw [parseStatement, parseStatement, nextAddress_folded]
  cases nextAddress st.out with
  | none => exact st.reported_folded _ true
  | some address =>
    cases label with
    | none => exact parseBody_folded source st address none mnemonic operand comment
    | some span =>
      have hsymbols : st.folded.out.symbols = st.out.symbols := rfl
      have hline : st.folded.lineNumber = st.lineNumber := rfl
      simp only [hsymbols, hline]
      cases defineLabel source st.out.symbols span address st.lineNumber with
      | error d => exact st.reported_folded _ st.stopped
      | ok symbols =>
        exact parseBody_folded source { st with out := { st.out with symbols } } address
          (some span) mnemonic operand comment

theorem parseOrigin_folded (source : Str) (st : ParseState) (keyword digits : Span) :
    (parseOrigin source st.folded keyword digits).folded =
      (parseOrigin source st keyword digits).folded := by
  have hempty : st.folded.out.program.items.isEmpty = st.out.program.items.isEmpty :=
    List.isEmpty_map
  have horigin : st.folded.out.program.origin = st.out.program.origin := rfl
  rw [parseOrigin, parseOrigin, hempty, horigin]
  simp only
  split
  · exact st.reported_folded _ st.stopped
  · simp only [ParseState.folded, Program.folded, List.map_map]
    rfl

theorem parseLine_folded (source text : Str) (st : ParseState) :
    (parseLine source st.folded text).folded = (parseLine source st text).folded := by
  have hform : (parseForm source st.folded text).folded = (parseForm source st text).folded := by
    have hbase : st.folded.base = st.base := rfl
    rw [parseForm, parseForm, hbase]
    cases splitLine text st.base with
    | blank comment => exact st.folded_folded
    | origin keyword digits comment => exact parseOrigin_folded source st keyword digits
    | statement label mnemonic operand comment =>
      exact parseStatement_folded source st label mnemonic operand comment
    | malformed => exact st.reported_folded _ st.stopped
  have hskip : (skipLine source st.folded text).folded = (skipLine source st text).folded := by
    have htrailing : st.folded.out.program.trailing = st.out.program.trailing := rfl
    have hbase : st.folded.base = st.base := rfl
    rw [skipLine, skipLine, htrailing, hbase]
    split
    · simp only [ParseState.folded, Program.folded, List.map_map]
      rfl
    · exact st.folded_folded
  have hstopped : st.folded.stopped = st.stopped := rfl
  have hnext : ∀ st' st'' : ParseState, st'.folded = st''.folded →
      ({ st' with base := st'.base + utf8Len text + 1, lineNumber := st'.lineNumber + 1 } :
        ParseState).folded =
      ({ st'' with base := st''.base + utf8Len text + 1, lineNumber := st''.lineNumber + 1 } :
        ParseState).folded := by
    intro st' st'' heq
    exact congrArg (fun st : ParseState =>
      ({ st with base := st.base + utf8Len text + 1, lineNumber := st.lineNumber + 1 } :
        ParseState)) heq
  rw [parseLine, parseLine, hstopped]
  apply hnext
  cases st.stopped with
  | true => exact hskip
  | false => exact hform

theorem utf8Len_take_lt {s : Str} {i : Nat} (h : i < s.length) :
    utf8Len (s.take i) < utf8Len s := by
  have hsplit := congrArg utf8Len (List.take_append_drop i s)
  have hne : s.drop i ≠ [] := by
    rw [ne_eq, List.drop_eq_nil_iff]
    omega
  have hpos := Nat.pos_of_ne_zero (mt utf8Len_eq_zero.mp hne)
  rw [utf8Len_append] at hsplit
  omega

/-- All other tokens are read as before. -/
theorem Recased.kept (h : Recased source source') {t : Token} (ht : t ∈ tokenize source)
    (hkind : ¬ (t.kind = .mnemonic ∨ t.kind = .originKeyword)) :
    t.span.text source' = t.span.text source := by
  have hordered := tokenize_ordered source
  have htokens := tokenize_inTokens source
  obtain ⟨before, piece, after, hsource, -, -, hrange⟩ := htokens.split (List.mem_map_of_mem ht)
  rw [Nat.zero_add] at hrange
  obtain ⟨hstart, hstop⟩ := Prod.mk.inj hrange
  change t.span.start = utf8Len before at hstart
  change t.span.stop = utf8Len before + utf8Len piece at hstop
  have hlower := h.lowercase
  rw [hsource, toAsciiLowercase, toAsciiLowercase, List.map_append, List.map_append] at hlower
  obtain ⟨before', rest', hsource', hbefore, hrest⟩ := List.map_eq_append_iff.mp hlower
  obtain ⟨piece', after', hrest', hpiece, -⟩ := List.map_eq_append_iff.mp hrest
  rw [hrest'] at hsource'
  have hbeforeLength : before'.length = before.length := by
    simpa using congrArg List.length hbefore
  have hpieceLength : piece'.length = piece.length := by
    simpa using congrArg List.length hpiece
  have hbeforeSize : utf8Len before' = utf8Len before := by
    rw [← utf8Len_lower before', ← utf8Len_lower before]
    exact congrArg utf8Len hbefore
  have hsame : piece' = piece := by
    apply List.ext_getElem hpieceLength
    intro i hi hi'
    by_contra hne
    have hat : source[before.length + i]? = some piece[i] := by
      rw [hsource, List.getElem?_append_right (by omega), Nat.add_sub_cancel_left,
        List.getElem?_append_left hi', List.getElem?_eq_getElem hi']
    have hat' : source'[before.length + i]? = some piece'[i] := by
      rw [hsource', List.getElem?_append_right (by omega), hbeforeLength, Nat.add_sub_cancel_left,
        List.getElem?_append_left hi, List.getElem?_eq_getElem hi]
    obtain ⟨t', ht', hkind', hle, hlt⟩ := h.confined _ _ _ hat hat' hne
    have htake : source.take (before.length + i) = before ++ piece.take i := by
      rw [hsource, List.take_length_add_append, List.take_append_of_le_length hi'.le]
    rw [htake, utf8Len_append] at hle hlt
    have hinside := utf8Len_take_lt hi'
    have heq : t' = t := Lib.Tiling.eq_of_inside (f := Token.range) hordered ht' ht ⟨hle, hlt⟩
      ⟨by rw [Token.range, hstart]; exact Nat.le_add_right _ _,
        by rw [Token.range, hstop]; omega⟩
    exact hkind (heq ▸ hkind')
  subst hsame
  rw [Span.text, Span.text, hstart, hstop, hsource, ← List.append_assoc, sliceBytes_append,
    hsource', ← List.append_assoc, ← hbeforeSize, sliceBytes_append]

/-- A mnemonic spelled in other letter case. -/
theorem recased_swap {front piece back new : Str} {t : Token}
    (ht : t ∈ tokenize (front ++ (piece ++ back)))
    (hkind : t.kind = .mnemonic ∨ t.kind = .originKeyword)
    (hspan : t.span = ⟨utf8Len front, utf8Len front + utf8Len piece⟩)
    (hcase : toAsciiLowercase new = toAsciiLowercase piece) :
    Recased (front ++ (piece ++ back)) (front ++ (new ++ back)) := by
  have hlength : new.length = piece.length := by rw [← length_lower, hcase, length_lower]
  constructor
  · simp only [toAsciiLowercase, List.map_append] at hcase ⊢
    rw [hcase]
  · intro i c c' hc hc' hne
    refine ⟨t, ht, hkind, ?_⟩
    by_cases hfront : i < front.length
    · rw [List.getElem?_append_left hfront] at hc hc'
      rw [hc, Option.some.injEq] at hc'
      exact absurd hc'.symm hne
    · obtain ⟨j, rfl⟩ := Nat.exists_eq_add_of_le (Nat.le_of_not_lt hfront)
      rw [List.getElem?_append_right (by omega), Nat.add_sub_cancel_left] at hc hc'
      by_cases hpiece : j < piece.length
      · have htake :
            (front ++ (piece ++ back)).take (front.length + j) = front ++ piece.take j := by
          rw [List.take_length_add_append, List.take_append_of_le_length hpiece.le]
        have hinside := utf8Len_take_lt hpiece
        rw [htake, utf8Len_append, hspan]
        constructor
        · exact Nat.le_add_right _ _
        · simp only
          omega
      · rw [List.getElem?_append_right (by omega)] at hc hc'
        rw [hlength, hc, Option.some.injEq] at hc'
        exact absurd hc'.symm hne

theorem trimmedSpan_recased {text text' : Str}
    (h : toAsciiLowercase text' = toAsciiLowercase text) (base : Nat) :
    trimmedSpan text' base = trimmedSpan text base ∧ (trim text' = [] ↔ trim text = []) := by
  have hstart : ∀ s, toAsciiLowercase (trimStart s) = trimStart (toAsciiLowercase s) :=
    fun s => (dropWhile_lower caseless_whitespace s).symm
  have hstop : ∀ s, toAsciiLowercase (trimEnd s) = trimEnd (toAsciiLowercase s) := by
    intro s
    have hreverse : ∀ s, toAsciiLowercase (List.reverse s) = (toAsciiLowercase s).reverse :=
      fun s => List.map_reverse
    rw [trimEnd, trimEnd, hreverse, ← dropWhile_lower caseless_whitespace, hreverse]
  have hlength : ∀ s s', toAsciiLowercase s = toAsciiLowercase s' → utf8Len s = utf8Len s' := by
    intro s s' heq
    rw [← utf8Len_lower s, heq, utf8Len_lower]
  have htrimmed : toAsciiLowercase (trimEnd text') = toAsciiLowercase (trimEnd text) := by
    rw [hstop, hstop, h]
  have hpiece : toAsciiLowercase (trimStart (trimEnd text')) =
      toAsciiLowercase (trimStart (trimEnd text)) := by
    rw [hstart, hstart, htrimmed]
  constructor
  · rw [trimmedSpan, trimmedSpan, hlength _ _ htrimmed, hlength _ _ hpiece]
  · have htrim : toAsciiLowercase (trim text') = toAsciiLowercase (trim text) := by
      rw [trim, trim, hstop, hstart, hstop, hstart, h]
    rw [← lower_eq_nil, htrim, lower_eq_nil]

/-- A mnemonic is read as before but for its case. -/
theorem lower_textOf {text text' : Str} {number base : Nat}
    (h : AtLine source text number base) (h' : AtLine source' text' number base)
    (hcase : toAsciiLowercase text' = toAsciiLowercase text) {label : Option Span}
    {mnemonic : Span} {operand comment : Option Span}
    (hform : splitLine text base = .statement label mnemonic operand comment) :
    toAsciiLowercase (textOf source' mnemonic) = toAsciiLowercase (textOf source mnemonic) := by
  obtain ⟨p, -, rfl, -, -, rfl, -, -⟩ := statement_parts hform
  have hlength : text'.length = p.text.length := by
    rw [← length_lower, hcase, length_lower]
  have hwithin := p.mnemonicRange_within
  have hwithin' : Within text' p.mnemonicRange := ⟨hwithin.1, hlength ▸ hwithin.2⟩
  have hspan : charSpan text' base = charSpan p.text base := by
    rw [← charSpan_lower, hcase, charSpan_lower]
  have hslice : ∀ text range, toAsciiLowercase (slice text range) =
      slice (toAsciiLowercase text) range := by
    intro text range
    simp only [slice, toAsciiLowercase, List.map_take, List.map_drop]
  rw [h.textOf hwithin, ← hspan, h'.textOf hwithin', hslice, hslice, hcase]

theorem parseBody_recased (st : ParseState) (address : MemoryAddress) {label : Option Span}
    {mnemonic : Span} {operand : Option Span} (comment : Option Span)
    (hlabel : ∀ span ∈ label, textOf source' span = textOf source span)
    (hmnemonic : toAsciiLowercase (textOf source' mnemonic) =
      toAsciiLowercase (textOf source mnemonic))
    (hoperand : ∀ span ∈ operand, textOf source' span = textOf source span) :
    (parseBody source' st address label mnemonic operand comment).folded =
      (parseBody source st address label mnemonic operand comment).folded := by
  have hlabels : label.map (fun span => (⟨textOf source' span, span⟩ : Label)) =
      label.map fun span => ⟨textOf source span, span⟩ := by
    apply Option.map_congr
    intro span hspan
    rw [hlabel span hspan]
  have hoperands : operand.map (fun span => (⟨textOf source' span, span⟩ : Operand)) =
      operand.map fun span => ⟨textOf source span, span⟩ := by
    apply Option.map_congr
    intro span hspan
    rw [hoperand span hspan]
  simp only [parseBody, hmnemonic, hlabels, hoperands]
  split
  · rfl
  · simp only [ParseState.folded, Program.folded, List.map_append]
    rfl

theorem parseForm_recased (h : Recased source source') {text text' : Str} {st : ParseState}
    (hline : AtLine source text st.lineNumber st.base)
    (hline' : AtLine source' text' st.lineNumber st.base)
    (hcase : toAsciiLowercase text' = toAsciiLowercase text) :
    (parseForm source' st text').folded = (parseForm source st text).folded := by
  have hkept : ∀ t ∈ lineTokens text st.base, ¬ (t.kind = .mnemonic ∨ t.kind = .originKeyword) →
      t.span.text source' = t.span.text source :=
    fun t ht => h.kept (hline.tokenize ht)
  rw [parseForm, parseForm, splitLine_recased hcase]
  rw [lineTokens] at hkept
  cases hform : splitLine text st.base with
  | blank comment => rfl
  | malformed =>
    simp only [(trimmedSpan_recased hcase st.base).1]
  | origin keyword digits comment =>
    simp only [hform] at hkept
    simp only [parseOrigin, hkept ⟨.operand, digits⟩ (by simp) (by simp)]
  | statement label mnemonic operand comment =>
    simp only [hform] at hkept
    have hlabel : ∀ span ∈ label, textOf source' span = textOf source span := by
      intro span hspan
      obtain rfl := Option.mem_def.mp hspan
      rw [textOf, textOf, hkept ⟨.label, span⟩ (by simp [labelTokens]) (by simp)]
    have hoperand : ∀ span ∈ operand, textOf source' span = textOf source span := by
      intro span hspan
      obtain rfl := Option.mem_def.mp hspan
      rw [textOf, textOf, hkept ⟨.operand, span⟩ (by simp) (by simp)]
    have hbody := fun st address => parseBody_recased st address comment hlabel
      (lower_textOf hline hline' hcase hform) hoperand
    simp only [parseStatement]
    cases nextAddress st.out with
    | none => rfl
    | some address =>
      cases label with
      | none => exact hbody st address
      | some span =>
        simp only [defineLabel, hlabel span rfl]
        split
        · rfl
        · exact hbody _ address

/-- The first pass ends in states that differ in the case of mnemonics only. -/
theorem stateUpTo_recased (h : Recased source source') {number : Nat}
    (hnumber : number ≤ (source.splitOn '\n').length) :
    (stateUpTo source' number).folded = (stateUpTo source number).folded := by
  induction number with
  | zero => rfl
  | succ number ih =>
    obtain ⟨text, htext⟩ : ∃ text, (source.splitOn '\n')[number]? = some text :=
      ⟨_, List.getElem?_eq_getElem (Nat.lt_of_succ_le hnumber)⟩
    have hfolded := ih (Nat.le_of_succ_le hnumber)
    have hline := stateUpTo_atLine htext
    obtain ⟨text', hline', hcase⟩ := hline.recased h.lowercase
    have htext' := hline'.line
    rw [(stateUpTo_place (Nat.le_of_succ_le hnumber)).1] at htext'
    rw [stateUpTo_succ htext, stateUpTo_succ htext', ← parseLine_folded, hfolded,
      parseLine_folded]
    have hlength : utf8Len text' = utf8Len text := by
      rw [← utf8Len_lower, hcase, utf8Len_lower]
    rw [parseLine, parseLine, hlength]
    cases (stateUpTo source number).stopped with
    | true =>
      obtain ⟨hspan, htrim⟩ := trimmedSpan_recased hcase (stateUpTo source number).base
      have hsize : utf8Len source' = utf8Len source := by
        rw [← utf8Len_lower, h.lowercase, utf8Len_lower]
      simp only [skipLine, hspan, ne_eq, htrim, hsize, if_true]
    | false =>
      have hform := parseForm_recased h hline hline' hcase
      exact congrArg (fun st : ParseState =>
        ({ st with base := st.base + utf8Len text + 1, lineNumber := st.lineNumber + 1 } :
          ParseState)) hform

/-- Nor does the second pass look at the case of a mnemonic. -/
theorem assembleItems_folded (items : List Item) (st : AssembleState) :
    assembleItems (items.map Item.folded) st = assembleItems items st := by
  have hitem : ∀ item st, assembleItem item.folded st = assembleItem item st :=
    fun item st => rfl
  induction items generalizing st with
  | nil => rfl
  | cons item items ih => simp only [List.map_cons, assembleItems, hitem, ih]

theorem assemble_recased (h : Recased source source') :
    Alike (assemble source) (assemble source') := by
  have hlines : (source'.splitOn '\n').length = (source.splitOn '\n').length := by
    rw [← List.length_map (f := toAsciiLowercase), ← lower_splitOn, h.lowercase, lower_splitOn,
      List.length_map]
  have hfolded := stateUpTo_recased h (le_refl _)
  have hall : stateUpTo source' (source.splitOn '\n').length =
      (source'.splitOn '\n').foldl (parseLine source') {} := by
    rw [stateUpTo, ← hlines, List.take_length]
  rw [hall, stateUpTo, List.take_length] at hfolded
  generalize hst : (source.splitOn '\n').foldl (parseLine source) {} = st at hfolded
  generalize hst' : (source'.splitOn '\n').foldl (parseLine source') {} = st' at hfolded
  have hitems : st.out.program.items.map Item.folded = st'.out.program.items.map Item.folded :=
    (congrArg (fun st => st.out.program.items) hfolded).symm
  have horigin : st.out.program.origin = st'.out.program.origin :=
    (congrArg (fun st => st.out.program.origin) hfolded).symm
  have hsymbols : st.out.symbols = st'.out.symbols :=
    (congrArg (fun st => st.out.symbols) hfolded).symm
  have hmap : st.out.sourceMap = st'.out.sourceMap :=
    (congrArg (fun st => st.out.sourceMap) hfolded).symm
  have hdiagnostics : st.diagnostics = st'.diagnostics :=
    (congrArg (fun st => st.diagnostics) hfolded).symm
  have hparse : parse source = (st.out, st.diagnostics) := by rw [← hst]; rfl
  have hparse' : parse source' = (st'.out, st'.diagnostics) := by rw [← hst']; rfl
  have hsecond := assembleItems_folded st.out.program.items ⟨st.out.symbols, st.diagnostics⟩
  rw [hitems, hsymbols, hdiagnostics, assembleItems_folded] at hsecond
  refine ⟨?_, ?_, ?_, ?_, ?_⟩
  · simp only [Asm.assemble, hparse, hparse', Program.originAddress, horigin]
  · simp only [Asm.assemble, hparse, hparse', hsecond, hsymbols, hdiagnostics]
  · simp only [Asm.assemble, hparse, hparse', hsecond, hsymbols, hdiagnostics]
  · simp only [Asm.assemble, hparse, hparse', hmap]
  · simp only [Asm.assemble, hparse, hparse', hsecond, hsymbols, hdiagnostics]

end MarieRs.Asm
