import MarieRs.Asm.Grammar

namespace MarieRs.Asm

open Lib.Backtracking

variable (text : Str) (base : Nat)

/-- `ORG` and three digits: the one statement that has a form of its own. -/
def Parts.isOrigin (p : Parts) : Bool :=
  p.label.isNone && toAsciiLowercase p.body.mnemonic == "org".toList &&
    p.body.operand.any fun found => found.2.length == 3 && found.2.all isAsciiHexdigit

/-- A label that is the last of the leading whitespace, before a comma. -/
def lexEarly (text : Str) : Option Parts :=
  let lead := text.takeWhile isWhitespace
  match lead.getLast?, text.dropWhile isWhitespace with
  | some c, ',' :: rest => (lexBody rest).map fun body => ⟨lead.dropLast, some [c], body⟩
  | _, _ => none

def lexStatement (text : Str) : Option Parts := (lexLine text).or (lexEarly text)

/-- An `ORG` line, read on its own. -/
def lexOrigin (text : Str) : Option Parts :=
  let code := text.dropWhile isWhitespace
  let rest := code.drop 3
  let digits := rest.dropWhile isWhitespace
  if toAsciiLowercase (code.take 3) = "org".toList ∧ rest.takeWhile isWhitespace ≠ [] ∧
      3 ≤ digits.length ∧ (digits.take 3).all isAsciiHexdigit ∧ isTail (digits.drop 3) then
    some ⟨text.takeWhile isWhitespace, none,
      ⟨[], code.take 3, some (rest.takeWhile isWhitespace, digits.take 3), digits.drop 3⟩⟩
  else none

/-- Where the form of a line in parts has its parts. -/
def Parts.ranges (p : Parts) : Ranges :=
  let comment := commentRange p.text.length p.body.tail
  if p.isOrigin then .origin p.mnemonicRange (p.operandRange.getD (0, 0)) comment
  else .statement p.labelRange p.mnemonicRange p.operandRange comment

def rangesOf (text : Str) : Ranges :=
  if isTail text then .blank (commentRange text.length text)
  else
    match lexStatement text with
    | some p => p.ranges
    | none => .malformed

/-- A label that begins within the leading whitespace is one character of it. -/
structure Parts.Early (p : Parts) : Prop where
  lead : p.lead.all isWhitespace = true
  label : ∃ c, p.label = some [c] ∧ isWhitespace c = true
  body : p.body.Valid

/-- What a statement line may be taken apart into. -/
def Parts.Sound (p : Parts) : Prop := p.Valid ∨ p.Early

namespace Parts.Sound

theorem lead {p : Parts} (h : p.Sound) : p.lead.all isWhitespace = true := by
  rcases h with h | h
  · exact h.lead
  · exact h.lead

theorem body {p : Parts} (h : p.Sound) : p.body.Valid := by
  rcases h with h | h
  · exact h.body
  · exact h.body

theorem label {p : Parts} (h : p.Sound) {name : Str} (hname : p.label = some name) :
    name ≠ [] ∧ name.all isLabelChar = true := by
  rcases h with h | h
  · obtain ⟨hne, hall, -⟩ := h.label name hname
    exact ⟨hne, hall⟩
  · obtain ⟨c, hc, hspace⟩ := h.label
    rw [hc] at hname
    cases hname
    exact ⟨by simp, by simp [whitespace_label hspace]⟩

end Parts.Sound

theorem lexEarly_sound {text : Str} {p : Parts} (h : lexEarly text = some p) :
    text = p.text ∧ p.Early := by
  have hsplit : text.takeWhile isWhitespace ++ text.dropWhile isWhitespace = text :=
    List.takeWhile_append_dropWhile
  have hall := all_takeWhile isWhitespace text
  simp only [lexEarly] at h
  generalize text.takeWhile isWhitespace = lead at h hsplit hall
  split at h
  · rename_i c rest hlast hcode
    obtain ⟨b, hb, rfl⟩ := Option.map_eq_some_iff.mp h
    obtain ⟨hrest, hvalid⟩ := lexBody_sound hb
    obtain ⟨init, rfl⟩ := List.getLast?_eq_some_iff.mp hlast
    simp only [List.all_append, List.all_cons, List.all_nil, Bool.and_true,
      Bool.and_eq_true] at hall
    rw [List.dropLast_concat]
    constructor
    · rw [← hsplit, hcode, hrest]
      simp [Parts.text, Parts.labelText]
    · exact ⟨hall.1, ⟨c, rfl, hall.2⟩, hvalid⟩
  · cases h

/-- The comma of an early label is the first of the code. -/
theorem Parts.Early.split {p : Parts} (h : p.Early) :
    ∃ c, p.label = some [c] ∧ p.text.takeWhile isWhitespace = p.lead ++ [c] ∧
      p.text.dropWhile isWhitespace = ',' :: p.body.text := by
  obtain ⟨c, hc, hspace⟩ := h.label
  have htext : p.text = (p.lead ++ [c]) ++ ',' :: p.body.text := by
    simp [Parts.text, Parts.labelText, hc]
  have hall : (p.lead ++ [c]).all isWhitespace = true := by
    rw [List.all_append, h.lead]
    simp [hspace]
  have hcomma : ∀ d ∈ (',' :: p.body.text).head?, isWhitespace d = false := by
    intro d hd
    cases hd
    decide
  obtain ⟨htake, hdrop⟩ := takeWhile_stop hall hcomma
  rw [htext]
  exact ⟨c, hc, htake, hdrop⟩

theorem lexEarly_text {p : Parts} (h : p.Early) :
    lexLine p.text = none ∧ lexEarly p.text = some p := by
  obtain ⟨c, hc, htake, hdrop⟩ := h.split
  have hword : lexBody (',' :: p.body.text) = none := by
    have hspace : isWhitespace ',' = false := by decide
    have hnot : isWordChar ',' = false := by decide
    rw [lexBody, List.dropWhile_cons_of_neg (by simp [hspace]), lexWord, if_neg (by simp [hnot])]
  have hlabel : lexLabel (',' :: p.body.text) = none := by
    have hnot : isLabelChar ',' = false := by decide
    rw [lexLabel, List.dropWhile_cons_of_neg (by simp [hnot]),
      List.takeWhile_cons_of_neg (by simp [hnot])]
    rfl
  constructor
  · simp only [lexLine, hdrop, hlabel, Option.bind_none, hword, Option.map_none]
  · simp only [lexEarly, htake, hdrop, List.getLast?_concat, List.dropLast_concat,
      lexBody_text h.body, Option.map_some]
    rw [← hc]

theorem lexStatement_sound {text : Str} {p : Parts} (h : lexStatement text = some p)
    (hslash : (text.dropWhile isWhitespace).head? ≠ some '/') : text = p.text ∧ p.Sound := by
  rw [lexStatement] at h
  cases hline : lexLine text with
  | some q =>
    rw [hline, Option.some_or] at h
    cases h
    obtain ⟨htext, hvalid⟩ := lexLine_sound hline hslash
    exact ⟨htext, .inl hvalid⟩
  | none =>
    rw [hline, Option.none_or] at h
    obtain ⟨htext, hearly⟩ := lexEarly_sound h
    exact ⟨htext, .inr hearly⟩

theorem lexStatement_text {p : Parts} (h : p.Sound) : lexStatement p.text = some p := by
  rcases h with h | h
  · rw [lexStatement, lexLine_text h, Option.some_or]
  · obtain ⟨hline, hearly⟩ := lexEarly_text h
    rw [lexStatement, hline, Option.none_or, hearly]

/-- A line in parts is not blank. -/
theorem Parts.Sound.not_tail {p : Parts} (h : p.Sound) : isTail p.text = false := by
  have hhead : ∃ c rest, p.text.dropWhile isWhitespace = c :: rest ∧ c ≠ '/' := by
    rcases h with h | h
    · have hhead := h.head
      have hlead : p.text.dropWhile isWhitespace = p.labelText ++ p.body.text :=
        (takeWhile_stop h.lead fun c hc => (hhead c hc).1).2
      rw [hlead]
      cases hcode : p.labelText ++ p.body.text with
      | nil =>
        obtain ⟨d, chars, hword, -⟩ := h.body.mnemonic
        simp [Body.text, hword] at hcode
      | cons c rest => exact ⟨c, rest, rfl, (hhead c (by rw [hcode]; rfl)).2⟩
    · obtain ⟨-, -, -, hdrop⟩ := h.split
      exact ⟨',', _, hdrop, by decide⟩
  obtain ⟨c, rest, hdrop, hc⟩ := hhead
  rw [isTail, hdrop]
  simpa using hc

theorem not_tail_head {text : Str} (h : isTail text = false) :
    (text.dropWhile isWhitespace).head? ≠ some '/' := by
  intro hslash
  obtain ⟨rest, hrest⟩ := List.head?_eq_some_iff.mp hslash
  rw [isTail, hrest] at h
  cases h

/-- Parts that spell a line are what the reader takes it apart into. -/
theorem rangesOf_parts {p : Parts} (h : p.Sound) : rangesOf p.text = p.ranges := by
  rw [rangesOf, h.not_tail, lexStatement_text h]
  rfl

/-- Whitespace before a label does not move its comma. -/
theorem lexLabel_skip {lead code name rest : Str} (hlead : lead.all isWhitespace = true)
    (h : lexLabel (lead ++ code) = some (name, rest)) :
    code.dropWhile isLabelChar = ',' :: rest := by
  obtain ⟨hcode, -, hname⟩ := lexLabel_sound h
  have hcomma : ∀ c ∈ (',' :: rest).head?, isLabelChar c = false := by
    intro c hc
    cases hc
    decide
  have hdrop := congrArg (List.dropWhile isLabelChar) hcode
  rw [(takeWhile_stop hname hcomma).2,
    List.dropWhile_append_of_pos (List.all_eq_true.mp (all_label hlead))] at hdrop
  exact hdrop

namespace Cursor

/-- The labels that begin within the leading whitespace are all followed by one body. -/
theorem early_lex (hline : lexLine text = none) :
    (List.range (runLength isWhitespace text 0)).reverse.findSome?
        (Cursor.new text base).withLabel =
      (lexEarly text).map (form text base) := by
  have hsplit : text.takeWhile isWhitespace ++ text.dropWhile isWhitespace = text :=
    List.takeWhile_append_dropWhile
  have hall := all_takeWhile isWhitespace text
  have hrun : runLength isWhitespace text 0 = (text.takeWhile isWhitespace).length := rfl
  rw [hrun, lexEarly]
  simp only [lexLine] at hline
  generalize text.takeWhile isWhitespace = lead at hline hsplit hall ⊢
  generalize text.dropWhile isWhitespace = code at hline hsplit ⊢
  have hskip : ∀ start < lead.length, (Cursor.new text base).withLabel start =
      (lexLabel (lead.drop start ++ code)).bind fun found => (lexBody found.2).map fun b =>
        .statement (some (charSpan text base (start, start + found.1.length)))
          (charSpan text base (b.mnemonicRange (start + (found.1.length + 1))))
          ((b.operandRange (start + (found.1.length + 1))).map (charSpan text base))
          ((commentRange text.length b.tail).map (charSpan text base)) := by
    intro start hstart
    rw [withLabel_lex, ← List.drop_append_of_le_length hstart.le, hsplit]
  have hdrop : ∀ start, (lead.drop start).all isWhitespace = true := fun start =>
    List.all_eq_true.mpr fun c hc => List.all_eq_true.mp hall c (List.mem_of_mem_drop hc)
  have hnone : (∀ start < lead.length, (lexLabel (lead.drop start ++ code)).bind
      (fun found => lexBody found.2) = none) →
        (List.range lead.length).reverse.findSome? (Cursor.new text base).withLabel = none := by
    intro hbody
    refine List.findSome?_eq_none_iff.mpr fun start hstart => ?_
    rw [List.mem_reverse, List.mem_range] at hstart
    rw [hskip start hstart]
    refine Option.bind_eq_none_iff.mpr fun found hfound => ?_
    rw [Option.bind_eq_none_iff.mp (hbody start hstart) found hfound, Option.map_none]
  cases code with
  | nil =>
    have hnolabel : ∀ start < lead.length,
        (lexLabel (lead.drop start ++ [])).bind (fun found => lexBody found.2) = none := by
      intro start hstart
      refine Option.bind_eq_none_iff.mpr fun found hfound => ?_
      have hnil := lexLabel_skip (hdrop start) hfound
      cases hnil
    rw [hnone hnolabel]
    cases lead.getLast? <;> rfl
  | cons c rest =>
    by_cases hc : c = ','
    · subst hc
      have hcomma : isLabelChar ',' = false := by decide
      have hname : ∀ start < lead.length,
          lexLabel (lead.drop start ++ ',' :: rest) = some (lead.drop start, rest) := by
        intro start hstart
        refine lexLabel_append (fun hnil => ?_) (all_label (hdrop start))
        rw [List.drop_eq_nil_iff] at hnil
        omega
      cases hbody : lexBody rest with
      | none =>
        rw [hnone fun start hstart => by rw [hname start hstart, Option.bind_some, hbody]]
        cases lead.getLast? with
        | none => rfl
        | some last => simp only [hbody, Option.map_none]
      | some b =>
        rcases List.eq_nil_or_concat lead with rfl | ⟨init, last, rfl⟩
        · rfl
        · have hfirst := hskip init.length (by simp)
          rw [hname init.length (by simp), Option.bind_some, hbody] at hfirst
          rw [List.length_concat, List.range_succ, List.reverse_append,
            List.reverse_singleton, List.singleton_append, List.findSome?_cons, hfirst]
          simp [hbody, form, Parts.labelRange, Parts.mnemonicRange, Parts.operandRange,
            Parts.bodyStart, Parts.labelText]
    · have hother : (match lead.getLast?, c :: rest with
          | some last, ',' :: rest => (lexBody rest).map fun body =>
              (⟨lead.dropLast, some [last], body⟩ : Parts)
          | _, _ => none) = none := by
        split
        · simp_all
        · rfl
      rw [hother, Option.map_none]
      apply hnone
      intro start hstart
      refine Option.bind_eq_none_iff.mpr fun found hfound => ?_
      -- a label that is there without the whitespace has been tried
      have hafter := lexLabel_skip (hdrop start) hfound
      have hne : (c :: rest).takeWhile isLabelChar ≠ [] := by
        intro hnil
        have happend := List.takeWhile_append_dropWhile (p := isLabelChar) (l := c :: rest)
        rw [hnil, List.nil_append, hafter] at happend
        cases happend
        exact hc rfl
      have hlabel : lexLabel (c :: rest) =
          some ((c :: rest).takeWhile isLabelChar, found.2) := by
        rw [lexLabel, hafter]
        simp only [if_neg hne]
      simp only [hlabel, Option.bind_some] at hline
      cases hbody : lexBody found.2 with
      | none => rfl
      | some b => simp [hbody] at hline

theorem statement_lex :
    (Cursor.new text base).statement = (lexStatement text).map (form text base) := by
  rw [statement_eq, first_lex, lexStatement]
  cases hline : lexLine text with
  | some p => rfl
  | none =>
    rw [Option.map_none, Option.none_or, Option.none_or]
    exact early_lex text base hline

theorem origin_lex : (Cursor.new text base).origin = (lexOrigin text).map fun p =>
    .origin (charSpan text base p.mnemonicRange) (charSpan text base (p.operandRange.getD (0, 0)))
      ((commentRange text.length p.body.tail).map (charSpan text base)) := by
  have hcode := drop_runLength text isWhitespace 0
  rw [Nat.zero_add, List.drop_zero] at hcode
  have hrun : runLength isWhitespace text 0 = (text.takeWhile isWhitespace).length := rfl
  rw [origin, lexOrigin]
  simp only [new_skipWhitespace, Nat.zero_add, new_len, new_at, new_span,
    new_text text base (Nat.le_add_right _ 3), Nat.add_sub_cancel_left, any_whitespace]
  generalize hstart : runLength isWhitespace text 0 = start at hcode hrun ⊢
  generalize text.dropWhile isWhitespace = code at hcode ⊢
  have hrest : text.drop (start + 3) = code.drop 3 := by rw [← List.drop_drop, hcode]
  have hdigits : text.drop (start + 3 + runLength isWhitespace text (start + 3)) =
      (code.drop 3).dropWhile isWhitespace := by rw [drop_runLength, hrest]
  have hgap : runLength isWhitespace text (start + 3) =
      ((code.drop 3).takeWhile isWhitespace).length := by rw [runLength, hrest]
  have htail : text.drop (start + 3 + runLength isWhitespace text (start + 3) + 3) =
      ((code.drop 3).dropWhile isWhitespace).drop 3 := by rw [← List.drop_drop, hdigits]
  have hlength := congrArg List.length hcode
  have hdigitsLength := congrArg List.length hdigits
  rw [List.length_drop] at hlength hdigitsLength
  rw [hcode, hrest, hdigits, tail_lex, htail]
  generalize (code.drop 3).dropWhile isWhitespace = digits at hdigitsLength ⊢
  by_cases hkeyword : toAsciiLowercase (code.take 3) = "org".toList
  · have hthree : (code.take 3).length = 3 := by
      have hlower := congrArg List.length hkeyword
      rw [toAsciiLowercase, List.length_map] at hlower
      exact hlower
    have hfits : ¬ start + 3 > text.length := by
      rw [List.length_take] at hthree
      omega
    have hsame : eqIgnoreAsciiCase (code.take 3) "org".toList = true := by
      rw [eqIgnoreAsciiCase, hkeyword]
      decide
    rw [if_neg (not_or.mpr ⟨hfits, not_not.mpr hsame⟩)]
    by_cases hspace : (code.drop 3).takeWhile isWhitespace = []
    · rw [if_pos (not_not.mpr hspace), if_neg (fun hall => hall.2.1 hspace)]
      rfl
    · rw [if_neg (not_not.mpr hspace)]
      by_cases hroom : 3 ≤ digits.length
      · rw [if_neg (by omega)]
        by_cases hhex : (digits.take 3).all isAsciiHexdigit = true
        · rw [if_neg (not_not.mpr hhex)]
          cases hisTail : isTail (digits.drop 3) with
          | false =>
            rw [if_neg (by simp), if_neg (fun hall => by simpa using hall.2.2.2.2)]
            rfl
          | true =>
            rw [if_pos rfl, if_pos ⟨hkeyword, hspace, hroom, hhex, rfl⟩]
            have htake : (digits.take 3).length = 3 := by
              rw [List.length_take]
              omega
            simp only [Option.map_some, Parts.mnemonicRange, Parts.operandRange, Parts.bodyStart,
              Parts.labelText, Body.mnemonicRange, Body.operandRange, List.length_nil, hthree,
              htake, Option.getD_some, ← hrun, ← hgap, Nat.add_zero]
        · rw [if_pos hhex, if_neg (fun hall => hhex hall.2.2.2.1)]
          rfl
      · rw [if_pos (by omega), if_neg (fun hall => hroom hall.2.2.1)]
        rfl
  · have hdiffers : ¬ eqIgnoreAsciiCase (code.take 3) "org".toList = true := by
      intro hsame
      have horg : toAsciiLowercase "org".toList = "org".toList := by decide
      rw [eqIgnoreAsciiCase, beq_iff_eq, horg] at hsame
      exact hkeyword hsame
    rw [if_pos (.inr hdiffers), if_neg (fun hall => hkeyword hall.1)]
    rfl

end Cursor

theorem hexdigit_word {c : Char} (h : isAsciiHexdigit c = true) : isBare c = true := by
  have hspace : isWhitespace c = false := by
    by_contra hnot
    rw [Bool.not_eq_false] at hnot
    rw [whitespace_not_hexdigit hnot] at h
    cases h
  have hcomma : c ≠ ',' := by
    rintro rfl
    revert h
    decide
  have hslash : c ≠ '/' := by
    rintro rfl
    revert h
    decide
  simp [isBare, isWordChar, hspace, hcomma, hslash]

theorem bare_isWord {word : Str} (hne : word ≠ []) (h : word.all isBare = true) : IsWord word := by
  cases word with
  | nil => exact absurd rfl hne
  | cons c rest =>
    rw [List.all_cons, Bool.and_eq_true] at h
    exact ⟨c, rest, rfl, bare_word h.1, h.2⟩

/-- An `ORG` line is one that the reader takes apart into these parts. -/
theorem lexOrigin_iff {p : Parts} (hslash : (text.dropWhile isWhitespace).head? ≠ some '/') :
    lexOrigin text = some p ↔ lexLine text = some p ∧ p.isOrigin = true := by
  have hsplit : text.takeWhile isWhitespace ++ text.dropWhile isWhitespace = text :=
    List.takeWhile_append_dropWhile
  have hlead := all_takeWhile isWhitespace text
  have hcode := head_dropWhile isWhitespace text
  constructor
  · intro h
    simp only [lexOrigin] at h
    generalize text.takeWhile isWhitespace = lead at h hsplit hlead
    generalize text.dropWhile isWhitespace = code at h hsplit hcode hslash
    split at h
    · rename_i hall
      obtain ⟨hkeyword, hgap, hroom, hhex, htail⟩ := hall
      cases h
      have hbare := org_bare hkeyword
      have hdigits : (((code.drop 3).dropWhile isWhitespace).take 3).length = 3 := by
        rw [List.length_take]
        omega
      have hne : ∀ word : Str, word.length = 3 → word ≠ [] := by
        rintro word hlength rfl
        cases hlength
      have hthree : (code.take 3).length = 3 := by
        have hlower := congrArg List.length hkeyword
        rw [toAsciiLowercase, List.length_map] at hlower
        exact hlower
      have hvalid : Parts.Valid ⟨lead, none, ⟨[], code.take 3, some
          ((code.drop 3).takeWhile isWhitespace, ((code.drop 3).dropWhile isWhitespace).take 3),
          ((code.drop 3).dropWhile isWhitespace).drop 3⟩⟩ := by
        refine ⟨hlead, by simp, ⟨rfl, bare_isWord (hne _ hthree) hbare, ?_, htail, by simp⟩,
          fun _ => ⟨rfl, fun hhead => ?_⟩⟩
        · intro gap word heq
          cases heq
          exact ⟨hgap, all_takeWhile _ _, bare_isWord (hne _ hdigits)
            (List.all_eq_true.mpr fun c hc => hexdigit_word (List.all_eq_true.mp hhex c hc))⟩
        · cases code with
          | nil => cases hhead
          | cons c rest => exact hslash hhead
      have htext : Parts.text ⟨lead, none, ⟨[], code.take 3, some
          ((code.drop 3).takeWhile isWhitespace, ((code.drop 3).dropWhile isWhitespace).take 3),
          ((code.drop 3).dropWhile isWhitespace).drop 3⟩⟩ = text := by
        simp only [Parts.text, Parts.labelText, Body.text, Body.operandText, List.nil_append,
          List.append_assoc, List.take_append_drop, List.takeWhile_append_dropWhile, hsplit]
      refine ⟨?_, ?_⟩
      · rw [← htext]
        exact lexLine_text hvalid
      · simp [Parts.isOrigin, hkeyword, hdigits, hhex]
    · cases h
  · rintro ⟨hline, horigin⟩
    obtain ⟨rfl, hvalid⟩ := lexLine_sound hline hslash
    obtain ⟨lead, label, gap, mnemonic, operand, tail⟩ := p
    simp only [Parts.isOrigin, Bool.and_eq_true, Option.isNone_iff_eq_none, beq_iff_eq,
      Option.any_eq_true] at horigin
    obtain ⟨⟨rfl, hkeyword⟩, ⟨space, word⟩, rfl, hlength, hhex⟩ := horigin
    obtain ⟨rfl, -⟩ := hvalid.plain rfl
    obtain ⟨hne, hspace, hword⟩ := hvalid.body.operand space word rfl
    have hthree : mnemonic.length = 3 := by
      have hlower := congrArg List.length hkeyword
      rw [toAsciiLowercase, List.length_map] at hlower
      exact hlower
    obtain ⟨htake, hdrop⟩ := takeWhile_stop hvalid.lead fun c hc => (hvalid.head c hc).1
    obtain ⟨hgapTake, hgapDrop⟩ := takeWhile_stop hspace (hword.head tail)
    simp only [Parts.labelText, Body.text, Body.operandText, List.nil_append,
      List.append_assoc] at htake hdrop
    simp only at hlength hhex
    have htail : isTail tail = true := hvalid.body.tail
    rw [lexOrigin]
    simp only [Parts.text, Parts.labelText, Body.text, Body.operandText, List.nil_append,
      List.append_assoc, htake, hdrop, List.take_left' hthree, List.drop_left' hthree, hgapTake,
      hgapDrop, List.take_left' hlength, List.drop_left' hlength, hkeyword, hhex, htail,
      List.length_append, hlength]
    rw [if_pos ⟨trivial, hne, Nat.le_add_right _ _, trivial, trivial⟩]

/-- What a line is recognised as, told by reading it from left to right. -/
theorem splitLine_rangesOf : splitLine text base = (rangesOf text).form text base := by
  have hblank : (Cursor.new text base).blank = if isTail text then
      some (.blank ((commentRange text.length text).map (charSpan text base))) else none := by
    rw [Cursor.blank_eq, Cursor.tail_lex, List.drop_zero]
    split <;> rfl
  rw [splitLine, rangesOf]
  simp only [hblank, Cursor.statement_lex]
  cases htail : isTail text with
  | true => rfl
  | false =>
    have hslash := not_tail_head htail
    simp only [Bool.false_eq_true, if_false, Cursor.origin_lex]
    cases horigin : lexOrigin text with
    | some p =>
      obtain ⟨hline, hisOrigin⟩ := (lexOrigin_iff text hslash).mp horigin
      obtain ⟨htext, -⟩ := lexLine_sound hline hslash
      simp only [lexStatement, hline, Option.some_or, Option.map_some, Parts.ranges, hisOrigin,
        if_true, ← htext]
      rfl
    | none =>
      cases hstatement : lexStatement text with
      | none => rfl
      | some p =>
        obtain ⟨htext, hsound⟩ := lexStatement_sound hstatement hslash
        have hnot : p.isOrigin = false := by
          cases hisOrigin : p.isOrigin with
          | false => rfl
          | true =>
            rcases hsound with hvalid | hearly
            · have hline := lexLine_text hvalid
              rw [← htext] at hline
              rw [(lexOrigin_iff text hslash).mpr ⟨hline, hisOrigin⟩] at horigin
              cases horigin
            · obtain ⟨c, hc, -⟩ := hearly.label
              simp [Parts.isOrigin, hc] at hisOrigin
        simp only [Option.map_some, Option.getD_some, Parts.ranges, hnot, Bool.false_eq_true,
          if_false, ← htext]
        rfl

/-- What a line in parts says. -/
def Parts.shape (p : Parts) : Shape :=
  if p.isOrigin then .origin (p.statement.operand.getD []) else .statement p.statement

theorem Parts.ranges_ordered (p : Parts) : p.ranges.Ordered p.text := by
  rw [ranges]
  split
  · refine ⟨p.mnemonicRange_within, ?_⟩
    cases hoperand : p.operandRange with
    | none => exact ⟨le_rfl, Nat.zero_le _⟩
    | some r => exact p.operandRange_within r hoperand
  · exact ⟨p.labelRange_within, p.mnemonicRange_within, p.operandRange_within⟩

theorem Parts.ranges_shape (p : Parts) : p.ranges.shape p.text = p.shape := by
  rw [ranges, shape]
  split
  · have hoperand := p.slice_operand
    rw [Ranges.shape, statement]
    simp only [← hoperand]
    cases p.operandRange with
    | none => simp [slice]
    | some r => rfl
  · rw [Ranges.shape, p.statement_eq]

/-- What a line says, told by reading it from left to right. -/
theorem shapeOf_eq : shapeOf text =
    if isTail text then .blank
    else
      match lexStatement text with
      | some p => p.shape
      | none => .malformed := by
  have hform := splitLine_rangesOf text 0
  rw [rangesOf] at hform
  cases htail : isTail text with
  | true =>
    rw [htail, if_pos rfl] at hform
    have hordered : (Ranges.blank (commentRange text.length text)).Ordered text := trivial
    exact shapeOf_ranges hordered hform
  | false =>
    simp only [htail, Bool.false_eq_true, if_false] at hform ⊢
    cases hparts : lexStatement text with
    | none =>
      simp only [hparts] at hform
      have hordered : Ranges.malformed.Ordered text := trivial
      exact shapeOf_ranges hordered hform
    | some p =>
      simp only [hparts] at hform
      obtain ⟨rfl, -⟩ := lexStatement_sound hparts (not_tail_head htail)
      rw [shapeOf_ranges p.ranges_ordered hform, p.ranges_shape]

end MarieRs.Asm
