import MarieRs.Asm.Reader

namespace MarieRs.Asm

open Lib.Backtracking

variable (text : Str) (base : Nat)

def IsWord (word : Str) : Prop :=
  ∃ c rest, word = c :: rest ∧ isWordChar c = true ∧ rest.all isBare = true

structure Body.Valid (b : Body) : Prop where
  gap : b.gap.all isWhitespace = true
  mnemonic : IsWord b.mnemonic
  operand : ∀ gap word, b.operand = some (gap, word) →
    gap ≠ [] ∧ gap.all isWhitespace = true ∧ IsWord word
  tail : isTail b.tail = true
  plain : b.operand = none → lexOperand b.tail = some (none, b.tail)

structure Parts.Valid (p : Parts) : Prop where
  lead : p.lead.all isWhitespace = true
  label : ∀ name, p.label = some name → name ≠ [] ∧ name.all isLabelChar = true ∧
    ∀ c ∈ name.head?, isWhitespace c = false
  body : p.body.Valid
  plain : p.label = none → p.body.gap = [] ∧ p.body.mnemonic.head? ≠ some '/'

theorem word_not_whitespace {c : Char} (h : isWordChar c = true) : isWhitespace c = false := by
  simp only [isWordChar, Bool.and_eq_true, Bool.not_eq_true'] at h
  exact h.1

theorem whitespace_not_bare {c : Char} (h : isWhitespace c = true) : isBare c = false := by
  simp [isBare, whitespace_not_word h]

theorem all_takeWhile (p : Char → Bool) (s : Str) : (s.takeWhile p).all p = true :=
  List.all_eq_true.mpr fun _ hc => List.mem_takeWhile_imp hc

theorem head_dropWhile (p : Char → Bool) (s : Str) : ∀ c ∈ (s.dropWhile p).head?, p c = false := by
  intro c hc
  cases hs : s.dropWhile p with
  | nil => simp [hs] at hc
  | cons d rest =>
    rw [hs] at hc
    cases hc
    have hne : s.dropWhile p ≠ [] := by simp [hs]
    have hhead := List.head_dropWhile_not p hne
    simpa [hs] using hhead

theorem isTail_head {s : Str} (h : isTail s = true) : ∀ c ∈ s.head?, isBare c = false := by
  intro c hc
  cases s with
  | nil => cases hc
  | cons d s =>
    cases hc
    by_cases hspace : isWhitespace c = true
    · exact whitespace_not_bare hspace
    · rw [isTail, List.dropWhile_cons_of_neg hspace] at h
      simp only [beq_iff_eq] at h
      subst h
      decide

theorem lexWord_sound {s word rest : Str} (h : lexWord s = some (word, rest)) :
    s = word ++ rest ∧ IsWord word := by
  cases s with
  | nil => cases h
  | cons c s =>
    rw [lexWord] at h
    split at h
    · rename_i hc
      cases h
      refine ⟨?_, c, _, rfl, hc, all_takeWhile isBare s⟩
      rw [List.cons_append, List.takeWhile_append_dropWhile]
    · cases h

theorem lexWord_append {word rest : Str} (hword : IsWord word)
    (hrest : ∀ c ∈ rest.head?, isBare c = false) : lexWord (word ++ rest) = some (word, rest) := by
  obtain ⟨c, chars, rfl, hc, hall⟩ := hword
  obtain ⟨htake, hdrop⟩ := takeWhile_stop hall hrest
  rw [List.cons_append, lexWord, if_pos hc, htake, hdrop]

theorem IsWord.nonempty {word : Str} (h : IsWord word) : word ≠ [] := by
  obtain ⟨c, rest, rfl, -⟩ := h
  exact List.cons_ne_nil c rest

theorem IsWord.head {word : Str} (h : IsWord word) (rest : Str) :
    ∀ c ∈ (word ++ rest).head?, isWhitespace c = false := by
  obtain ⟨c, chars, rfl, hc, -⟩ := h
  intro d hd
  cases hd
  exact word_not_whitespace hc

theorem lexOperand_sound {s tail : Str} {operand : Option (Str × Str)}
    (h : lexOperand s = some (operand, tail)) :
    isTail tail = true ∧ match operand with
      | none => s = tail
      | some (gap, word) =>
        s = gap ++ word ++ tail ∧ gap ≠ [] ∧ gap.all isWhitespace = true ∧ IsWord word := by
  have hfallback : ∀ {result : Option (Str × Str) × Str},
      (if isTail s then some (none, s) else none) = some result →
        isTail s = true ∧ result = (none, s) := by
    intro result hresult
    split at hresult
    · rename_i htail
      exact ⟨htail, (Option.some.inj hresult).symm⟩
    · cases hresult
  rw [lexOperand] at h
  by_cases hgap : s.takeWhile isWhitespace = []
  · simp only [if_pos hgap] at h
    obtain ⟨htail, heq⟩ := hfallback h
    cases heq
    exact ⟨htail, rfl⟩
  · simp only [if_neg hgap] at h
    cases hword : lexWord (s.dropWhile isWhitespace) with
    | none =>
      simp only [hword] at h
      obtain ⟨htail, heq⟩ := hfallback h
      cases heq
      exact ⟨htail, rfl⟩
    | some found =>
      obtain ⟨word, rest⟩ := found
      simp only [hword] at h
      by_cases hrest : isTail rest = true
      · simp only [if_pos hrest, Option.some.injEq, Prod.mk.injEq] at h
        obtain ⟨rfl, rfl⟩ := h
        obtain ⟨hdrop, hisWord⟩ := lexWord_sound hword
        refine ⟨hrest, ?_, hgap, all_takeWhile isWhitespace s, hisWord⟩
        rw [List.append_assoc, ← hdrop, List.takeWhile_append_dropWhile]
      · simp only [if_neg hrest] at h
        obtain ⟨htail, heq⟩ := hfallback h
        cases heq
        exact ⟨htail, rfl⟩

theorem lexOperand_append {gap word tail : Str} (hgap : gap ≠ [])
    (hspace : gap.all isWhitespace = true) (hword : IsWord word) (htail : isTail tail = true) :
    lexOperand (gap ++ (word ++ tail)) = some (some (gap, word), tail) := by
  obtain ⟨htake, hdrop⟩ := takeWhile_stop hspace (hword.head tail)
  rw [lexOperand, htake, hdrop, if_neg hgap, lexWord_append hword (isTail_head htail)]
  simp only [if_pos htail]

theorem lexBody_sound {s : Str} {b : Body} (h : lexBody s = some b) : s = b.text ∧ b.Valid := by
  rw [lexBody] at h
  cases hword : lexWord (s.dropWhile isWhitespace) with
  | none =>
    rw [hword] at h
    cases h
  | some first =>
    obtain ⟨mnemonic, rest⟩ := first
    simp only [hword] at h
    obtain ⟨⟨operand, tail⟩, hoperand, rfl⟩ := Option.map_eq_some_iff.mp h
    obtain ⟨hdrop, hmnemonic⟩ := lexWord_sound hword
    obtain ⟨htail, hshape⟩ := lexOperand_sound hoperand
    cases operand with
    | none =>
      have hshape : rest = tail := hshape
      subst hshape
      refine ⟨?_, all_takeWhile _ s, hmnemonic, by simp, htail, fun _ => hoperand⟩
      rw [Body.text, Body.operandText, List.nil_append, ← hdrop, List.takeWhile_append_dropWhile]
    | some found =>
      obtain ⟨space, word⟩ := found
      obtain ⟨hrest, hgap, hspace, hisWord⟩ := hshape
      refine ⟨?_, all_takeWhile _ s, hmnemonic, ?_, htail, by simp⟩
      · rw [Body.text, Body.operandText, ← hrest, ← hdrop, List.takeWhile_append_dropWhile]
      · intro gap word heq
        cases heq
        exact ⟨hgap, hspace, hisWord⟩

/-- The operator ends where its bare characters do. -/
theorem Body.Valid.after {b : Body} (h : b.Valid) :
    ∀ c ∈ (b.operandText ++ b.tail).head?, isBare c = false := by
  rw [Body.operandText]
  cases hoperand : b.operand with
  | none => exact isTail_head h.tail
  | some found =>
    obtain ⟨space, word⟩ := found
    obtain ⟨hne, hspace, -⟩ := h.operand space word hoperand
    cases space with
    | nil => exact absurd rfl hne
    | cons c space =>
      intro d hd
      cases hd
      exact whitespace_not_bare (List.all_eq_true.mp hspace c List.mem_cons_self)

theorem lexBody_text {b : Body} (h : b.Valid) : lexBody b.text = some b := by
  have hrest := h.after
  obtain ⟨gap, mnemonic, operand, tail⟩ := b
  obtain ⟨htake, hdrop⟩ := takeWhile_stop h.gap
    (h.mnemonic.head (Body.operandText ⟨gap, mnemonic, operand, tail⟩ ++ tail))
  rw [lexBody, Body.text]
  simp only at htake hdrop
  rw [htake, hdrop, lexWord_append h.mnemonic hrest]
  cases operand with
  | none =>
    simp only [Body.operandText, List.nil_append, h.plain rfl, Option.map_some]
  | some found =>
    obtain ⟨space, word⟩ := found
    obtain ⟨hne, hspace, hword⟩ := h.operand space word rfl
    simp only [Body.operandText, List.append_assoc, lexOperand_append hne hspace hword h.tail,
      Option.map_some]

theorem lexLabel_sound {s name rest : Str} (h : lexLabel s = some (name, rest)) :
    s = name ++ ',' :: rest ∧ name ≠ [] ∧ name.all isLabelChar = true := by
  have hsplit : s.takeWhile isLabelChar ++ s.dropWhile isLabelChar = s :=
    List.takeWhile_append_dropWhile
  rw [lexLabel] at h
  split at h
  · rename_i after hdrop
    split at h
    · cases h
    · rename_i hne
      cases h
      rw [hdrop] at hsplit
      exact ⟨hsplit.symm, hne, all_takeWhile isLabelChar s⟩
  · cases h

theorem lexLabel_append {name rest : Str} (hne : name ≠ []) (hall : name.all isLabelChar = true) :
    lexLabel (name ++ ',' :: rest) = some (name, rest) := by
  have hcomma : ∀ c ∈ (',' :: rest).head?, isLabelChar c = false := by
    intro c hc
    cases hc
    decide
  obtain ⟨htake, hdrop⟩ := takeWhile_stop hall hcomma
  rw [lexLabel, hdrop, htake]
  simp only [if_neg hne]

theorem whitespace_label {c : Char} (h : isWhitespace c = true) : isLabelChar c = true :=
  whitespace_all isLabelChar (by decide) h

theorem bare_label {c : Char} (h : isBare c = true) : isLabelChar c = true := by
  simp only [isBare, isWordChar, Bool.and_eq_true] at h
  simp only [isLabelChar, Bool.and_eq_true]
  exact ⟨h.1.2, h.2⟩

/-- Only a slash ends what could be a label. -/
def NoComma (s : Str) : Prop := ∀ c ∈ (s.dropWhile isLabelChar).head?, c = '/'

theorem NoComma.lexLabel {s : Str} (h : NoComma s) : lexLabel s = none := by
  rw [Asm.lexLabel]
  split
  · rename_i rest hdrop
    have := h ',' (by rw [hdrop]; rfl)
    cases this
  · rfl

theorem NoComma.append {s rest : Str} (hs : s.all isLabelChar = true) (h : NoComma rest) :
    NoComma (s ++ rest) := by
  rw [NoComma, List.dropWhile_append_of_pos (List.all_eq_true.mp hs)]
  exact h

theorem noComma_tail {s : Str} (h : isTail s = true) : NoComma s := by
  have hsplit : s.takeWhile isWhitespace ++ s.dropWhile isWhitespace = s :=
    List.takeWhile_append_dropWhile
  rw [← hsplit]
  refine NoComma.append (List.all_eq_true.mpr fun c hc =>
    whitespace_label (List.mem_takeWhile_imp hc)) fun c hc => ?_
  rw [isTail] at h
  cases hdrop : s.dropWhile isWhitespace with
  | nil =>
    rw [hdrop] at hc
    cases hc
  | cons d rest =>
    rw [hdrop] at h hc
    have hd : d = '/' := by simpa using h
    subst hd
    cases hc
    rfl

theorem IsWord.noComma {word rest : Str} (h : IsWord word) (hrest : NoComma rest) :
    NoComma (word ++ rest) := by
  obtain ⟨c, chars, rfl, hc, hall⟩ := h
  by_cases hslash : c = '/'
  · intro d hd
    subst hslash
    cases hd
    rfl
  · refine NoComma.append ?_ hrest
    have hbare : isBare c = true := by simp [isBare, hc, hslash]
    simp only [List.all_cons, Bool.and_eq_true, List.all_eq_true] at hall ⊢
    exact ⟨bare_label hbare, fun d hd => bare_label (hall d hd)⟩

theorem all_label {s : Str} (h : s.all isWhitespace = true) : s.all isLabelChar = true :=
  List.all_eq_true.mpr fun c hc => whitespace_label (List.all_eq_true.mp h c hc)

/-- No label can be read off a statement that has none. -/
theorem Body.Valid.noComma {b : Body} (h : b.Valid) : NoComma b.text := by
  refine NoComma.append (all_label h.gap) (h.mnemonic.noComma ?_)
  rw [Body.operandText]
  cases hoperand : b.operand with
  | none => exact noComma_tail h.tail
  | some found =>
    obtain ⟨gap, word⟩ := found
    obtain ⟨-, hgap, hword⟩ := h.operand gap word hoperand
    simp only [List.append_assoc]
    exact NoComma.append (all_label hgap) (hword.noComma (noComma_tail h.tail))

theorem lexLine_sound {text : Str} {p : Parts} (h : lexLine text = some p)
    (hslash : (text.dropWhile isWhitespace).head? ≠ some '/') : text = p.text ∧ p.Valid := by
  have hsplit : text.takeWhile isWhitespace ++ text.dropWhile isWhitespace = text :=
    List.takeWhile_append_dropWhile
  have hhead := head_dropWhile isWhitespace text
  rw [lexLine] at h
  generalize text.dropWhile isWhitespace = code at h hsplit hslash hhead
  cases hlabelled : (lexLabel code).bind fun found => (lexBody found.2).map fun body =>
      (⟨text.takeWhile isWhitespace, some found.1, body⟩ : Parts) with
  | some q =>
    simp only [hlabelled, Option.some.injEq] at h
    subst h
    obtain ⟨⟨name, rest⟩, hname, hmap⟩ := Option.bind_eq_some_iff.mp hlabelled
    obtain ⟨b, hb, rfl⟩ := Option.map_eq_some_iff.mp hmap
    obtain ⟨hcode, hne, hall⟩ := lexLabel_sound hname
    obtain ⟨hrest, hvalid⟩ := lexBody_sound hb
    simp only at hrest
    constructor
    · rw [Parts.text, Parts.labelText, ← hrest, List.append_assoc, List.singleton_append, ← hcode,
        hsplit]
    · refine ⟨all_takeWhile _ text, ?_, hvalid, by simp⟩
      intro other hother
      cases hother
      refine ⟨hne, hall, fun c hc => hhead c ?_⟩
      rw [hcode]
      cases name with
      | nil => exact absurd rfl hne
      | cons d name => exact hc
  | none =>
    simp only [hlabelled] at h
    obtain ⟨b, hb, rfl⟩ := Option.map_eq_some_iff.mp h
    obtain ⟨hcode, hvalid⟩ := lexBody_sound hb
    constructor
    · rw [Parts.text, Parts.labelText, List.nil_append, ← hcode, hsplit]
    · have hgap : b.gap = [] := by
        cases hg : b.gap with
        | nil => rfl
        | cons c gap =>
          have hc : isWhitespace c = true := by
            have := hvalid.gap
            rw [hg] at this
            exact List.all_eq_true.mp this c List.mem_cons_self
          have := hhead c (by rw [hcode, Body.text, hg]; rfl)
          rw [hc] at this
          cases this
      refine ⟨all_takeWhile _ text, by simp, hvalid, fun _ => ⟨hgap, fun hmnemonic => hslash ?_⟩⟩
      obtain ⟨c, chars, hword, -⟩ := hvalid.mnemonic
      rw [hword] at hmnemonic
      rw [hcode, Body.text, hgap, hword]
      exact hmnemonic

theorem Parts.Valid.head {p : Parts} (h : p.Valid) :
    ∀ c ∈ (p.labelText ++ p.body.text).head?, isWhitespace c = false ∧ c ≠ '/' := by
  intro c hc
  cases hlabel : p.label with
  | none =>
    obtain ⟨hgap, hslash⟩ := h.plain hlabel
    obtain ⟨d, chars, hword, hd, -⟩ := h.body.mnemonic
    rw [Parts.labelText, hlabel, Body.text, hgap, hword] at hc
    rw [hword] at hslash
    cases hc
    exact ⟨word_not_whitespace hd, fun heq => hslash (by rw [heq]; rfl)⟩
  | some name =>
    obtain ⟨hne, hall, hspace⟩ := h.label name hlabel
    rw [Parts.labelText, hlabel] at hc
    cases name with
    | nil => exact absurd rfl hne
    | cons d name =>
      cases hc
      refine ⟨hspace c rfl, ?_⟩
      have := List.all_eq_true.mp hall c List.mem_cons_self
      rintro rfl
      revert this
      decide

theorem lexLine_text {p : Parts} (h : p.Valid) : lexLine p.text = some p := by
  obtain ⟨lead, label, b⟩ := p
  obtain ⟨htake, hdrop⟩ := takeWhile_stop h.lead fun c hc => (h.head c hc).1
  rw [lexLine, Parts.text, htake, hdrop]
  cases label with
  | none =>
    simp only [Parts.labelText, List.nil_append, h.body.noComma.lexLabel, Option.bind_none,
      lexBody_text h.body, Option.map_some]
  | some name =>
    obtain ⟨hne, hall, -⟩ := h.label name rfl
    simp only [Parts.labelText, List.append_assoc, List.singleton_append, lexLabel_append hne hall,
      Option.bind_some, lexBody_text h.body, Option.map_some]

theorem Cursor.blank_none :
    (Cursor.new text base).blank = none ↔
      ∃ c, (text.dropWhile isWhitespace).head? = some c ∧ c ≠ '/' := by
  have hdrop := drop_runLength text isWhitespace 0
  rw [Nat.zero_add, List.drop_zero] at hdrop
  rw [blank]
  simp only [new_skipWhitespace, Nat.zero_add, new_at, get_drop, hdrop]
  cases text.dropWhile isWhitespace with
  | nil => simp
  | cons c rest =>
    by_cases hc : c = '/'
    · subst hc
      simp
    · simp [hc]

/-- An `ORG` line begins with that word and whitespace. -/
theorem Cursor.origin_some {form : LineForm} (h : (Cursor.new text base).origin = some form) :
    ∃ keyword c rest, text.dropWhile isWhitespace = keyword ++ c :: rest ∧
      toAsciiLowercase keyword = "org".toList ∧ isWhitespace c = true := by
  have hdrop := drop_runLength text isWhitespace 0
  rw [Nat.zero_add, List.drop_zero] at hdrop
  rw [origin] at h
  simp only [new_skipWhitespace, Nat.zero_add, new_len, new_at] at h
  rw [new_text text base (Nat.le_add_right _ 3), Nat.add_sub_cancel_left, get_drop, ← List.drop_drop,
    hdrop] at h
  split at h
  · cases h
  · rename_i hkeyword
    split at h
    · cases h
    · rename_i hspace
      rw [not_or, not_not] at hkeyword
      rw [not_not] at hspace
      obtain ⟨c, hc, hwhite⟩ := (Option.any_eq_true _ _).mp hspace
      obtain ⟨rest, hrest⟩ : ∃ rest, (text.dropWhile isWhitespace).drop 3 = c :: rest := by
        cases hd : (text.dropWhile isWhitespace).drop 3 with
        | nil => simp [hd] at hc
        | cons d rest =>
          rw [hd] at hc
          cases hc
          exact ⟨rest, rfl⟩
      refine ⟨(text.dropWhile isWhitespace).take 3, c, rest, ?_, ?_, hwhite⟩
      · rw [← hrest, List.take_append_drop]
      · exact eq_of_beq hkeyword.2

theorem org_bare {keyword : Str} (h : toAsciiLowercase keyword = "org".toList) :
    keyword.all isBare = true := by
  refine List.all_eq_true.mpr fun c hc => ?_
  have hlower : c.toLower ∈ "org".toList := h ▸ List.mem_map_of_mem hc
  by_contra hbare
  simp only [isBare, isWordChar, Bool.and_eq_true, Bool.not_eq_true', bne_iff_ne, not_and,
    ne_eq] at hbare
  by_cases hspace : isWhitespace c = true
  · have hnot : (!"org".toList.contains c.toLower) = true :=
      whitespace_all (fun c => !"org".toList.contains c.toLower) (by decide) hspace
    rw [List.contains_iff_mem.mpr hlower] at hnot
    cases hnot
  · by_cases hcomma : c = ','
    · subst hcomma
      revert hlower
      decide
    · have hslash : c = '/' := by
        by_contra hslash
        exact hbare ⟨by simpa using hspace, hcomma⟩ hslash
      subst hslash
      revert hlower
      decide

/-- A line in parts is not an `ORG` line, unless its operator says so. -/
theorem Parts.Valid.not_origin {p : Parts} (h : p.Valid)
    (hspace : ∀ name, p.label = some name → name.any isWhitespace = false)
    (horg : p.label = none → toAsciiLowercase p.body.mnemonic ≠ "org".toList) :
    (Cursor.new p.text base).origin = none := by
  cases horigin : (Cursor.new p.text base).origin with
  | none => rfl
  | some form =>
    exfalso
    obtain ⟨keyword, c, rest, hcode, hkeyword, hc⟩ := Cursor.origin_some p.text base horigin
    have hbare := org_bare hkeyword
    have hlead : p.text.dropWhile isWhitespace = p.labelText ++ p.body.text :=
      (takeWhile_stop h.lead fun c hc => (h.head c hc).1).2
    rw [hlead] at hcode
    cases hlabel : p.label with
    | none =>
      obtain ⟨hgap, hslash⟩ := h.plain hlabel
      obtain ⟨d, chars, hword, hd, hchars⟩ := h.body.mnemonic
      have hmnemonic : p.body.mnemonic.all isBare = true := by
        have hne : d ≠ '/' := fun heq => hslash (by rw [hword, heq]; rfl)
        rw [hword, List.all_cons, hchars, Bool.and_true]
        simp [isBare, hd, hne]
      have hstop : ∀ a ∈ (c :: rest).head?, isBare a = false := by
        intro a ha
        cases ha
        exact whitespace_not_bare hc
      rw [Parts.labelText, hlabel, Body.text, hgap, List.nil_append, List.nil_append] at hcode
      have htake := congrArg (List.takeWhile isBare) hcode
      rw [(takeWhile_stop hmnemonic h.body.after).1, (takeWhile_stop hbare hstop).1] at htake
      exact horg hlabel (htake ▸ hkeyword)
    | some name =>
      -- the comma would have to be one of the three letters
      have hcomma : ',' ∈ (keyword ++ c :: rest).takeWhile (fun a => !isWhitespace a) := by
        have hname : ∀ a ∈ name ++ [','], (!isWhitespace a) = true := by
          intro a ha
          rcases List.mem_append.mp ha with ha | ha
          · have hnone := List.any_eq_false.mp (hspace name hlabel) a ha
            simpa using hnone
          · rw [List.mem_singleton.mp ha]
            decide
        rw [← hcode, Parts.labelText, hlabel]
        simp only
        rw [List.takeWhile_append_of_pos hname]
        simp
      have hword : keyword.all (fun a => !isWhitespace a) = true :=
        List.all_eq_true.mpr fun a ha => by
          rw [word_not_whitespace (bare_word (List.all_eq_true.mp hbare a ha))]
          rfl
      have hstop : ∀ a ∈ (c :: rest).head?, (!isWhitespace a) = false := by
        intro a ha
        cases ha
        rw [hc]
        rfl
      rw [(takeWhile_stop hword hstop).1] at hcomma
      have hbareComma := List.all_eq_true.mp hbare ',' hcomma
      revert hbareComma
      decide

/-- A line in parts is read as those parts. -/
theorem Parts.Valid.splitLine {p : Parts} (h : p.Valid)
    (hspace : ∀ name, p.label = some name → name.any isWhitespace = false)
    (horg : p.label = none → toAsciiLowercase p.body.mnemonic ≠ "org".toList) :
    (splitLine p.text base).code = Cursor.code p.text base p := by
  have hhead := h.head
  have hlead : p.text.dropWhile isWhitespace = p.labelText ++ p.body.text :=
    (takeWhile_stop h.lead fun c hc => (hhead c hc).1).2
  have hblank : (Cursor.new p.text base).blank = none := by
    rw [Cursor.blank_none, hlead]
    cases hcode : p.labelText ++ p.body.text with
    | nil =>
      obtain ⟨d, chars, hword, -⟩ := h.body.mnemonic
      simp [Body.text, hword] at hcode
    | cons c rest => exact ⟨c, rfl, (hhead c (by rw [hcode]; rfl)).2⟩
  have hfirst := Cursor.first_code p.text base
  rw [lexLine_text h, Option.map_some] at hfirst
  obtain ⟨form, hform, hcode⟩ := Option.map_eq_some_iff.mp hfirst
  rw [Asm.splitLine]
  simp only [hblank, h.not_origin base hspace horg, Cursor.statement_eq, hform, Option.some_or,
    Option.getD_some, hcode]

theorem utf8Len_take_inj {s : Str} {i j : Nat} (hi : i ≤ s.length) (hj : j ≤ s.length)
    (h : utf8Len (s.take i) = utf8Len (s.take j)) : i = j := by
  induction s generalizing i j with
  | nil =>
    simp only [List.length_nil, Nat.le_zero] at hi hj
    rw [hi, hj]
  | cons c s ih =>
    have hc := c.utf8Size_pos
    cases i with
    | zero =>
      cases j with
      | zero => rfl
      | succ j =>
        simp only [List.take_zero, List.take_succ_cons, utf8Len_nil, utf8Len_cons] at h
        omega
    | succ i =>
      cases j with
      | zero =>
        simp only [List.take_zero, List.take_succ_cons, utf8Len_nil, utf8Len_cons] at h
        omega
      | succ j =>
        simp only [List.take_succ_cons, utf8Len_cons, Nat.add_left_cancel_iff] at h
        simp only [List.length_cons, Nat.add_le_add_iff_right] at hi hj
        rw [ih hi hj h]

theorem charSpan_inj {text : Str} {base : Nat} {r r' : Nat × Nat} (hr : Within text r)
    (hr' : Within text r') (h : charSpan text base r = charSpan text base r') : r = r' := by
  simp only [charSpan, Span.mk.injEq, Nat.add_left_cancel_iff] at h
  have hstart := utf8Len_take_inj (hr.1.trans hr.2) (hr'.1.trans hr'.2) h.1
  have hstop := utf8Len_take_inj hr.2 hr'.2 h.2
  exact Prod.ext hstart hstop

namespace Parts

theorem labelRange_within (p : Parts) : ∀ r ∈ p.labelRange, Within p.text r := by
  intro r hr
  obtain ⟨name, hname, rfl⟩ := Option.map_eq_some_iff.mp hr
  simp [Within, text, labelText, hname]

theorem mnemonicRange_within (p : Parts) : Within p.text p.mnemonicRange := by
  simp only [Within, mnemonicRange, Body.mnemonicRange, bodyStart, text, Body.text,
    List.length_append]
  omega

theorem operandRange_within (p : Parts) : ∀ r ∈ p.operandRange, Within p.text r := by
  intro r hr
  obtain ⟨⟨gap, word⟩, hoperand, rfl⟩ := Option.map_eq_some_iff.mp hr
  simp only [Within, bodyStart, text, Body.text, Body.operandText, hoperand, List.length_append]
  omega

theorem slice_append (before middle after : Str) {start stop : Nat} (hstart : start = before.length)
    (hstop : stop = before.length + middle.length) :
    slice (before ++ (middle ++ after)) (start, stop) = middle := by
  subst hstart hstop
  simp [slice]

theorem slice_label (p : Parts) : p.labelRange.map (slice p.text) = p.label := by
  rw [labelRange, Option.map_map]
  cases hlabel : p.label with
  | none => rfl
  | some name =>
    simp only [Option.map_some, Function.comp_apply, Option.some.injEq, text, labelText, hlabel,
      List.append_assoc]
    exact slice_append p.lead name _ rfl rfl

theorem slice_mnemonic (p : Parts) : slice p.text p.mnemonicRange = p.body.mnemonic := by
  have htext : p.text = (p.lead ++ p.labelText ++ p.body.gap) ++
      (p.body.mnemonic ++ (p.body.operandText ++ p.body.tail)) := by
    simp only [text, Body.text, List.append_assoc]
  rw [htext]
  exact slice_append _ _ _ (by simp [bodyStart, Nat.add_assoc]) (by simp [bodyStart, Nat.add_assoc])

/-- A line around its operand. -/
theorem operand_split {p : Parts} {gap word : Str} (h : p.body.operand = some (gap, word)) :
    p.text = (p.lead ++ p.labelText ++ p.body.gap ++ p.body.mnemonic ++ gap) ++
        (word ++ p.body.tail) ∧
      p.operandRange =
        some ((p.lead ++ p.labelText ++ p.body.gap ++ p.body.mnemonic ++ gap).length,
          (p.lead ++ p.labelText ++ p.body.gap ++ p.body.mnemonic ++ gap).length +
            word.length) := by
  constructor
  · simp only [text, Body.text, Body.operandText, h, List.append_assoc]
  · simp [operandRange, Body.operandRange, h, bodyStart, Nat.add_assoc]

theorem slice_operand (p : Parts) :
    p.operandRange.map (slice p.text) = p.body.operand.map Prod.snd := by
  cases hoperand : p.body.operand with
  | none => rw [operandRange, Body.operandRange, hoperand]; rfl
  | some found =>
    obtain ⟨gap, word⟩ := found
    obtain ⟨htext, hrange⟩ := operand_split hoperand
    rw [hrange, Option.map_some, Option.map_some, Option.some.injEq, htext]
    exact slice_append _ _ _ rfl rfl

/-- The ranges of a line in parts spell its statement. -/
theorem statement_eq (p : Parts) :
    p.statement = statementOf p.text p.labelRange p.mnemonicRange p.operandRange := by
  rw [statement, statementOf, slice_label, slice_mnemonic, slice_operand]

theorem Valid.shapeOf {p : Parts} (h : p.Valid)
    (hspace : ∀ name, p.label = some name → name.any isWhitespace = false)
    (horg : p.label = none → toAsciiLowercase p.body.mnemonic ≠ "org".toList) :
    shapeOf p.text = .statement p.statement := by
  have hcode := h.splitLine 0 hspace horg
  rw [Asm.shapeOf]
  cases hform : Asm.splitLine p.text 0 with
  | statement label mnemonic operand comment =>
    rw [hform] at hcode
    simp only [LineForm.code, Cursor.code, Option.some.injEq, Prod.mk.injEq] at hcode
    obtain ⟨rfl, rfl, rfl⟩ := hcode
    simp only [statement_eq, statementOf, map_textOf p.labelRange_within,
      textOf_charSpan p.mnemonicRange_within, map_textOf p.operandRange_within]
  | blank => rw [hform] at hcode; cases hcode
  | origin => rw [hform] at hcode; cases hcode
  | malformed => rw [hform] at hcode; cases hcode

end Parts

theorem map_charSpan_inj {text : Str} {base : Nat} {r r' : Option (Nat × Nat)}
    (hr : ∀ range ∈ r, Within text range) (hr' : ∀ range ∈ r', Within text range)
    (h : r.map (charSpan text base) = r'.map (charSpan text base)) : r = r' := by
  cases r with
  | none => exact (Option.map_eq_none_iff.mp h.symm).symm
  | some range =>
    obtain ⟨range', hrange', heq⟩ := Option.map_eq_some_iff.mp h.symm
    rw [hrange', charSpan_inj (hr range rfl) (hr' range' hrange') heq.symm]

theorem Cursor.origin_code {c : Cursor} {form : LineForm} (h : c.origin = some form) :
    form.code = none := by
  simp only [origin] at h
  repeat' first | split at h | cases h
  rfl

/-- A label that begins in the leading whitespace holds some of it. -/
theorem leading_label {start : Nat} (hstart : start < runLength isWhitespace text 0)
    {name rest : Str} (h : lexLabel (text.drop start) = some (name, rest)) :
    slice text (start, start + name.length) = name ∧ name.any isWhitespace = true := by
  obtain ⟨hdrop, hne, -⟩ := lexLabel_sound h
  obtain ⟨c, hc, hspace⟩ := mem_run hstart
  rw [Nat.zero_add, get_drop, hdrop] at hc
  constructor
  · simp [slice, hdrop]
  · cases name with
    | nil => exact absurd rfl hne
    | cons d name =>
      cases hc
      rw [List.any_cons, hspace, Bool.true_or]

/-- A statement line whose label holds no whitespace is in parts. -/
theorem parts_of_statement {text : Str} {label : Option (Nat × Nat)} {mnemonic : Nat × Nat}
    {operand comment : Option (Nat × Nat)}
    (hordered : (Ranges.statement label mnemonic operand comment).Ordered text)
    (hform : splitLine text 0 = (Ranges.statement label mnemonic operand comment).form text 0)
    (hspace : ∀ r ∈ label, (slice text r).any isWhitespace = false) :
    ∃ p : Parts, p.Valid ∧ p.text = text ∧ label = p.labelRange ∧ mnemonic = p.mnemonicRange ∧
      operand = p.operandRange := by
  obtain ⟨hlabel, hmnemonic, hoperand⟩ := hordered
  have hfirst := Cursor.first_code text 0
  rw [splitLine] at hform
  cases hblank : (Cursor.new text 0).blank with
  | some form =>
    rw [Cursor.blank_eq] at hblank
    obtain ⟨comment', -, rfl⟩ := Option.map_eq_some_iff.mp hblank
    rw [← Cursor.blank_eq] at hblank
    simp only [hblank] at hform
    cases hform
  | none =>
    obtain ⟨c, hhead, hslash⟩ := (Cursor.blank_none text 0).mp hblank
    cases horigin : (Cursor.new text 0).origin with
    | some form =>
      have hcode := Cursor.origin_code horigin
      simp only [hblank, horigin] at hform
      rw [hform] at hcode
      cases hcode
    | none =>
      simp only [hblank, horigin, Cursor.statement_eq] at hform
      cases hbody : ((Cursor.new text 0).withLabel (runLength isWhitespace text 0)).or
          ((Cursor.new text 0).body (runLength isWhitespace text 0) none) with
      | some form =>
        rw [hbody] at hfirst hform
        rw [Option.some_or, Option.getD_some] at hform
        obtain ⟨p, hp, hcode⟩ := Option.map_eq_some_iff.mp hfirst.symm
        obtain ⟨rfl, hvalid⟩ := lexLine_sound hp (by simp [hhead, hslash])
        rw [hform] at hcode
        simp only [Cursor.code, Ranges.form, LineForm.code, Option.some.injEq,
          Prod.mk.injEq] at hcode
        obtain ⟨hl, hm, ho⟩ := hcode
        exact ⟨p, hvalid, rfl, (map_charSpan_inj p.labelRange_within hlabel hl).symm,
          (charSpan_inj p.mnemonicRange_within hmnemonic hm).symm,
          (map_charSpan_inj p.operandRange_within hoperand ho).symm⟩
      | none =>
        exfalso
        rw [hbody, Option.none_or] at hform
        cases hlower : (List.range (runLength isWhitespace text 0)).reverse.findSome?
            (Cursor.new text 0).withLabel with
        | none =>
          rw [hlower] at hform
          cases hform
        | some form =>
          rw [hlower, Option.getD_some] at hform
          obtain ⟨start, hstart, hwith⟩ := List.exists_of_findSome?_eq_some hlower
          rw [List.mem_reverse, List.mem_range] at hstart
          have hcode := Cursor.withLabel_code text 0 start
          rw [hwith, Option.map_some] at hcode
          obtain ⟨⟨name, rest⟩, hname, hmap⟩ := Option.bind_eq_some_iff.mp hcode.symm
          obtain ⟨b, -, heq⟩ := Option.map_eq_some_iff.mp hmap
          obtain ⟨hslice, hwhite⟩ := leading_label text hstart hname
          rw [hform] at heq
          simp only [Ranges.form, LineForm.code, Option.some.injEq, Prod.mk.injEq] at heq
          obtain ⟨r, hr, hspan⟩ := Option.map_eq_some_iff.mp heq.1.symm
          have hwithin : Within text (start, start + name.length) := by
            have hlength := congrArg List.length (lexLabel_sound hname).1
            simp only [List.length_drop, List.length_append, List.length_cons] at hlength
            exact ⟨Nat.le_add_right _ _, by simp only; omega⟩
          have hr' := charSpan_inj (hlabel r hr) hwithin hspan
          have hnone := hspace r hr
          rw [hr', hslice, hwhite] at hnone
          cases hnone

theorem parts_of_shape {text : Str} {s : Statement} (h : shapeOf text = .statement s)
    (hspace : ∀ name, s.label = some name → name.any isWhitespace = false) :
    ∃ p : Parts, p.Valid ∧ p.text = text ∧ p.statement = s := by
  obtain ⟨ranges, hordered, hform⟩ := splitLine_ranges text
  rw [shapeOf_ranges hordered (hform 0)] at h
  cases ranges with
  | blank => cases h
  | origin => cases h
  | malformed => cases h
  | statement label mnemonic operand comment =>
    simp only [Ranges.shape, Shape.statement.injEq] at h
    obtain ⟨p, hvalid, rfl, rfl, rfl, rfl⟩ := parts_of_statement hordered (hform 0) fun r hr =>
      hspace (slice text r) (by rw [← h, statementOf, hr, Option.map_some])
    exact ⟨p, hvalid, rfl, by rw [p.statement_eq, h]⟩

theorem IsWord.no_whitespace {word : Str} (h : IsWord word) :
    ∀ c ∈ word, isWhitespace c = false := by
  obtain ⟨c, rest, rfl, hc, hrest⟩ := h
  intro d hd
  rcases List.mem_cons.mp hd with rfl | hd
  · exact word_not_whitespace hc
  · exact word_not_whitespace (bare_word (List.all_eq_true.mp hrest d hd))

/-- An operand is a word. -/
theorem Parts.Valid.operand {p : Parts} (h : p.Valid) {text : Str}
    (htext : p.statement.operand = some text) : IsWord text := by
  obtain ⟨⟨gap, word⟩, hoperand, rfl⟩ := Option.map_eq_some_iff.mp htext
  exact (h.body.operand gap word hoperand).2.2

end MarieRs.Asm
