import MarieRs.Asm.Lines

namespace MarieRs.Asm

open Lib.Backtracking

/-- A character that ends neither a word nor the line's code. -/
def isBare (c : Char) : Bool := isWordChar c && c != '/'

/-- The part of a line that its code ends with: `\s*(?:/.*)?$`. -/
def isTail (s : Str) : Bool :=
  match s.dropWhile isWhitespace with
  | [] => true
  | c :: _ => c == '/'

/-- A word and what follows it. A word may begin with a slash, but not hold one. -/
def lexWord : Str → Option (Str × Str)
  | [] => none
  | c :: rest =>
    if isWordChar c then some (c :: rest.takeWhile isBare, rest.dropWhile isBare) else none

/-- What follows an operator: the gap and the operand, if there are any, and the tail. -/
def lexOperand (s : Str) : Option (Option (Str × Str) × Str) :=
  let found :=
    if s.takeWhile isWhitespace = [] then none
    else
      match lexWord (s.dropWhile isWhitespace) with
      | some (word, rest) =>
        if isTail rest then some (some (s.takeWhile isWhitespace, word), rest) else none
      | none => none
  match found with
  | some result => some result
  | none => if isTail s then some (none, s) else none

/-- A statement without its label. -/
structure Body where
  gap : Str
  mnemonic : Str
  operand : Option (Str × Str)
  tail : Str
  deriving DecidableEq

def lexBody (s : Str) : Option Body :=
  match lexWord (s.dropWhile isWhitespace) with
  | none => none
  | some (mnemonic, rest) =>
    (lexOperand rest).map fun found => ⟨s.takeWhile isWhitespace, mnemonic, found.1, found.2⟩

/-- `(?<label>[^,/]+),` -/
def lexLabel (s : Str) : Option (Str × Str) :=
  match s.dropWhile isLabelChar with
  | ',' :: rest =>
    if s.takeWhile isLabelChar = [] then none else some (s.takeWhile isLabelChar, rest)
  | _ => none

/-- A statement line in parts. -/
structure Parts where
  lead : Str
  label : Option Str
  body : Body
  deriving DecidableEq

def lexLine (text : Str) : Option Parts :=
  let lead := text.takeWhile isWhitespace
  let code := text.dropWhile isWhitespace
  let labelled := (lexLabel code).bind fun found =>
    (lexBody found.2).map fun body => ⟨lead, some found.1, body⟩
  match labelled with
  | some parts => some parts
  | none => (lexBody code).map fun body => ⟨lead, none, body⟩

namespace Body

def operandText (b : Body) : Str :=
  match b.operand with
  | none => []
  | some (gap, word) => gap ++ word

def text (b : Body) : Str := b.gap ++ (b.mnemonic ++ (b.operandText ++ b.tail))

def mnemonicRange (b : Body) (start : Nat) : Nat × Nat :=
  (start + b.gap.length, start + b.gap.length + b.mnemonic.length)

def operandRange (b : Body) (start : Nat) : Option (Nat × Nat) :=
  b.operand.map fun (gap, word) =>
    (start + b.gap.length + b.mnemonic.length + gap.length,
      start + b.gap.length + b.mnemonic.length + gap.length + word.length)

end Body

namespace Parts

def labelText (p : Parts) : Str :=
  match p.label with
  | none => []
  | some name => name ++ [',']

def text (p : Parts) : Str := p.lead ++ (p.labelText ++ p.body.text)

def bodyStart (p : Parts) : Nat := p.lead.length + p.labelText.length

def labelRange (p : Parts) : Option (Nat × Nat) :=
  p.label.map fun name => (p.lead.length, p.lead.length + name.length)

def mnemonicRange (p : Parts) : Nat × Nat := p.body.mnemonicRange p.bodyStart

def operandRange (p : Parts) : Option (Nat × Nat) := p.body.operandRange p.bodyStart

def statement (p : Parts) : Statement :=
  ⟨p.label, p.body.mnemonic, p.body.operand.map Prod.snd⟩

end Parts

/-- Where the comment of a tail sits, in a line of this length. -/
def commentRange (length : Nat) (tail : Str) : Option (Nat × Nat) :=
  if tail.dropWhile isWhitespace = [] then none
  else some (length - (tail.dropWhile isWhitespace).length, length)

variable (text : Str) (base : Nat)

theorem bare_word {c : Char} (h : isBare c = true) : isWordChar c = true := by
  simp only [isBare, Bool.and_eq_true] at h
  exact h.1

theorem takeWhile_stop {p : Char → Bool} {l r : Str} (hl : l.all p = true)
    (hr : ∀ c ∈ r.head?, p c = false) : (l ++ r).takeWhile p = l ∧ (l ++ r).dropWhile p = r := by
  have hl' : ∀ c ∈ l, p c = true := List.all_eq_true.mp hl
  rw [List.takeWhile_append_of_pos hl', List.dropWhile_append_of_pos hl']
  cases r with
  | nil => simp
  | cons c r =>
    have hc : ¬ p c = true := by simp [hr c rfl]
    rw [List.takeWhile_cons_of_neg hc, List.dropWhile_cons_of_neg hc, List.append_nil]
    exact ⟨rfl, rfl⟩

theorem drop_takeWhile (p : Char → Bool) (l : Str) :
    l.drop (l.takeWhile p).length = l.dropWhile p := by
  induction l with
  | nil => rfl
  | cons c l ih =>
    rw [List.takeWhile_cons, List.dropWhile_cons]
    split
    · exact ih
    · rfl

theorem drop_runLength (p : Char → Bool) (i : Nat) :
    text.drop (i + runLength p text i) = (text.drop i).dropWhile p := by
  rw [← List.drop_drop, runLength, drop_takeWhile]

theorem get_drop (i : Nat) : text[i]? = (text.drop i).head? := by rw [List.head?_drop]

/-- A word ends where its bare characters do. -/
theorem drop_word {i : Nat} {word rest : Str} (h : lexWord (text.drop i) = some (word, rest)) :
    text.drop (i + word.length) = rest := by
  rw [← List.drop_drop]
  cases hs : text.drop i with
  | nil =>
    rw [hs] at h
    cases h
  | cons c s =>
    rw [hs, lexWord] at h
    split at h
    · cases h
      rw [List.length_cons, List.drop_succ_cons, drop_takeWhile]
    · cases h

theorem runLength_mono {p q : Char → Bool} (h : ∀ c, p c = true → q c = true) (i : Nat) :
    runLength p text i ≤ runLength q text i := by
  rw [runLength, runLength]
  generalize text.drop i = s
  induction s with
  | nil => simp
  | cons c s ih =>
    by_cases hc : p c = true
    · rw [List.takeWhile_cons_of_pos hc, List.takeWhile_cons_of_pos (h c hc)]
      simpa using ih
    · rw [List.takeWhile_cons_of_neg hc]
      exact Nat.zero_le _

variable {β : Type}

/-- A lazy search over the ends of a word stops at the end of its bare characters,
if what follows is never found at one of them and always at a slash. -/
theorem lazy_word (f : Nat → Option β)
    (hbare : ∀ stop c, text[stop]? = some c → isBare c = true → f stop = none)
    (hslash : ∀ stop, text[stop]? = some '/' → (f stop).isSome) (i : Nat) :
    (List.range' 1 (runLength isWordChar text i)).findSome? (fun j => f (i + j)) =
      (lexWord (text.drop i)).bind fun word => f (i + word.1.length) := by
  cases hi : text[i]? with
  | none =>
    rw [get_drop, List.head?_eq_none_iff] at hi
    rw [runLength, hi]
    rfl
  | some c =>
    have hdrop : text.drop i = c :: text.drop (i + 1) := by
      obtain ⟨hlt, rfl⟩ := List.getElem?_eq_some_iff.mp hi
      exact List.drop_eq_getElem_cons hlt
    by_cases hword : isWordChar c = true
    · rw [hdrop, lexWord, if_pos hword, Option.bind_some, List.length_cons]
      change _ = f (i + (runLength isBare text (i + 1) + 1))
      generalize hn : runLength isBare text (i + 1) = n
      have hbefore : (List.range' 1 n).findSome? (fun j => f (i + j)) = none := by
        refine List.findSome?_eq_none_iff.mpr fun j hj => ?_
        rw [List.mem_range'_1] at hj
        have hinside : j - 1 < runLength isBare text (i + 1) := by omega
        obtain ⟨a, ha, hpa⟩ := mem_run hinside
        rw [show i + 1 + (j - 1) = i + j by omega] at ha
        exact hbare _ a ha hpa
      have hle : n ≤ runLength isWordChar text (i + 1) :=
        hn ▸ runLength_mono text (fun c => bare_word) (i + 1)
      have hinside : n + runLength isWordChar text (i + 1 + n) =
          runLength isWordChar text (i + 1) := runLength_inside hle
      -- past the bare characters there is a slash, or the word is over
      have hlast : runLength isWordChar text (i + 1 + n) = 0 ∨ (f (i + (n + 1))).isSome := by
        cases hnext : text[i + 1 + n]? with
        | none => exact .inl (runLength_of_neg (by simp [hnext]))
        | some a =>
          have hnot : isBare a = false := not_mem_past_run (i + 1) (by rw [hn, hnext])
          by_cases ha : a = '/'
          · refine .inr (hslash _ ?_)
            rw [show i + (n + 1) = i + 1 + n by omega, hnext, ha]
          · refine .inl (runLength_of_neg fun b hb => ?_)
            rw [hnext] at hb
            cases hb
            simpa [isBare, ha] using hnot
      rw [runLength_of_pos hi hword, ← hinside,
        show n + runLength isWordChar text (i + 1 + n) + 1 =
          n + (runLength isWordChar text (i + 1 + n) + 1) by omega,
        ← List.range'_append_1, List.findSome?_append, hbefore, Option.none_or, List.range'_succ,
        List.findSome?_cons, Nat.add_comm 1 n]
      rcases hlast with hzero | hsome
      · rw [hzero]
        cases f (i + (n + 1)) <;> rfl
      · obtain ⟨b, hb⟩ := Option.isSome_iff_exists.mp hsome
        rw [hb]
    · rw [hdrop, lexWord, if_neg hword, runLength_of_neg (fun a ha => by
        rw [hi] at ha
        cases ha
        simpa using hword)]
      rfl

/-- The spans of a statement but for its comment. -/
def LineForm.code : LineForm → Option (Option Span × Span × Option Span)
  | .statement label mnemonic operand _ => some (label, mnemonic, operand)
  | _ => none

namespace Cursor

theorem tail_of_bare {stop : Nat} {c : Char} (hc : text[stop]? = some c) (hbare : isBare c = true) :
    (Cursor.new text base).tail stop = none := by
  have hword := bare_word hbare
  simp only [isBare, isWordChar, Bool.and_eq_true, Bool.not_eq_true', bne_iff_ne] at hbare
  rw [tail_eq, tailEnd, runLength_of_neg (fun a ha => by rw [hc] at ha; cases ha; exact hbare.1.1),
    Nat.add_zero, hc]
  split <;> simp_all

theorem tail_of_slash {stop : Nat} (hc : text[stop]? = some '/') :
    ((Cursor.new text base).tail stop).isSome := by
  rw [tail_eq, tailEnd, runLength_of_neg (fun a ha => by rw [hc] at ha; cases ha; decide),
    Nat.add_zero, hc]
  rfl

theorem any_whitespace (i : Nat) :
    (text[i]?).any isWhitespace = true ↔ (text.drop i).takeWhile isWhitespace ≠ [] := by
  rw [any_iff_runLength, runLength, ne_eq, ne_eq, List.length_eq_zero_iff]

/-- The tail, as the reader sees it. -/
theorem tail_lex (i : Nat) : (Cursor.new text base).tail i =
    if isTail (text.drop i) then
      some ((commentRange text.length (text.drop i)).map (charSpan text base))
    else none := by
  have hstop : text.drop (i + runLength isWhitespace text i) =
      (text.drop i).dropWhile isWhitespace := drop_runLength text isWhitespace i
  rw [tail_eq, tailEnd, isTail, commentRange, ← hstop]
  simp only [get_drop text (i + _), List.length_drop]
  cases hrest : text.drop (i + runLength isWhitespace text i) with
  | nil => rfl
  | cons c rest =>
    by_cases hc : c = '/'
    · subst hc
      have hlength := congrArg List.length hrest
      rw [List.length_drop, List.length_cons] at hlength
      simp only [List.head?_cons, reduceCtorEq, if_false, beq_self_eq_true, if_true,
        Option.map_some]
      rw [Nat.sub_sub_self (by omega)]
    · have hnot : (c == '/') = false := beq_eq_false_iff_ne.mpr hc
      simp [hnot]

theorem afterMnemonic_lex (i : Nat) :
    (Cursor.new text base).afterMnemonic i = (lexOperand (text.drop i)).map fun found =>
      (found.1.map fun (gap, word) =>
          charSpan text base (i + gap.length, i + gap.length + word.length),
        (commentRange text.length found.2).map (charSpan text base)) := by
  have htail : (((Cursor.new text base).tail i).map fun comment =>
      ((none : Option Span), comment)) =
        if isTail (text.drop i) then
          some (none, (commentRange text.length (text.drop i)).map (charSpan text base))
        else none := by
    rw [tail_lex]
    split <;> rfl
  rw [afterMnemonic, lexOperand]
  simp only [new_at, new_skipWhitespace, new_len, any_whitespace]
  by_cases hgap : (text.drop i).takeWhile isWhitespace = []
  · simp only [hgap, ne_eq, not_true, if_false, if_true]
    rw [htail]
    split <;> rfl
  · have hloop := lazy_word text
      (fun stop => ((Cursor.new text base).tail stop).map fun comment =>
        (some (charSpan text base (i + runLength isWhitespace text i, stop)), comment))
      (fun stop c hc hbare => by simp [tail_of_bare text base hc hbare])
      (fun stop hc => by simpa using tail_of_slash text base hc)
      (i + runLength isWhitespace text i)
    rw [if_pos hgap, operandLoop_eq, hloop, drop_runLength]
    simp only [if_neg hgap]
    cases hword : lexWord ((text.drop i).dropWhile isWhitespace) with
    | none =>
      simp only [Option.bind_none]
      rw [htail]
      split <;> rfl
    | some found =>
      obtain ⟨word, rest⟩ := found
      rw [← drop_runLength] at hword
      have hrest := drop_word text hword
      have hafter := tail_lex text base (i + runLength isWhitespace text i + word.length)
      rw [hrest] at hafter
      simp only [Option.bind_some, hafter]
      cases isTail rest with
      | false =>
        simp only [Bool.false_eq_true, if_false, Option.map_none]
        rw [htail]
        split <;> rfl
      | true => rfl

theorem afterMnemonic_of_bare {stop : Nat} {c : Char} (hc : text[stop]? = some c)
    (hbare : isBare c = true) : (Cursor.new text base).afterMnemonic stop = none := by
  have hspace : isWhitespace c = false := by
    have hword := bare_word hbare
    simp only [isWordChar, Bool.and_eq_true, Bool.not_eq_true'] at hword
    exact hword.1
  rw [afterMnemonic, tail_of_bare text base hc hbare, new_at, hc]
  simp [hspace]

theorem afterMnemonic_of_slash {stop : Nat} (hc : text[stop]? = some '/') :
    ((Cursor.new text base).afterMnemonic stop).isSome := by
  have hspace : isWhitespace '/' = false := by decide
  rw [afterMnemonic, new_at, hc]
  simpa [hspace] using tail_of_slash text base hc

/-- The body of a statement, as the left-to-right reader finds it. -/
theorem body_lex (i : Nat) (label : Option Span) :
    (Cursor.new text base).body i label =
      (lexBody (text.drop i)).map fun b => .statement label (charSpan text base (b.mnemonicRange i))
        ((b.operandRange i).map (charSpan text base))
        ((commentRange text.length b.tail).map (charSpan text base)) := by
  have hloop := lazy_word text
    (fun stop => ((Cursor.new text base).afterMnemonic stop).map fun found =>
      LineForm.statement label (charSpan text base (i + runLength isWhitespace text i, stop))
        found.1 found.2)
    (fun stop c hc hbare => by simp [afterMnemonic_of_bare text base hc hbare])
    (fun stop hc => by simpa using afterMnemonic_of_slash text base hc)
    (i + runLength isWhitespace text i)
  rw [body]
  simp only [new_skipWhitespace, new_len]
  rw [mnemonicLoop_eq, hloop, drop_runLength, lexBody]
  cases hword : lexWord ((text.drop i).dropWhile isWhitespace) with
  | none => rfl
  | some found =>
    obtain ⟨word, rest⟩ := found
    rw [← drop_runLength] at hword
    have hrest := drop_word text hword
    simp only [Option.bind_some, afterMnemonic_lex, hrest, Option.map_map]
    apply Option.map_congr
    intro read hread
    simp only [Function.comp_apply, Body.mnemonicRange, Body.operandRange, Option.map_map]
    rfl

theorem withLabel_lex (i : Nat) :
    (Cursor.new text base).withLabel i =
      (lexLabel (text.drop i)).bind fun found => (lexBody found.2).map fun b =>
        .statement (some (charSpan text base (i, i + found.1.length)))
          (charSpan text base (b.mnemonicRange (i + (found.1.length + 1))))
          ((b.operandRange (i + (found.1.length + 1))).map (charSpan text base))
          ((commentRange text.length b.tail).map (charSpan text base)) := by
  have hrun : (((Cursor.new text base).chars.drop i).takeWhile
      (fun p => p.2 != ',' && p.2 != '/')).length = runLength isLabelChar text i :=
    new_takeWhile text base isLabelChar i
  rw [withLabel, hrun]
  simp only [new_at, new_span, get_drop text (i + _), drop_runLength, lexLabel]
  cases hrest : (text.drop i).dropWhile isLabelChar with
  | nil => rfl
  | cons c rest =>
    by_cases hc : c = ','
    · subst hc
      have hdrop : text.drop (i + (runLength isLabelChar text i + 1)) = rest := by
        rw [← Nat.add_assoc, ← List.drop_drop, drop_runLength, hrest, List.drop_one, List.tail_cons]
      have hempty : (text.drop i).takeWhile isLabelChar = [] ↔
          i + runLength isLabelChar text i = i := by
        rw [← List.length_eq_zero_iff, runLength]
        omega
      by_cases hname : (text.drop i).takeWhile isLabelChar = []
      · rw [if_pos (.inr (hempty.mp hname))]
        simp only [if_pos hname]
        rfl
      · rw [if_neg (not_or.mpr ⟨by simp, mt hempty.mpr hname⟩), Nat.add_assoc, body_lex, hdrop]
        simp only [if_neg hname]
        rfl
    · rw [if_pos (.inl (by simpa using hc))]
      split <;> simp_all

theorem withLabel_code (i : Nat) :
    ((Cursor.new text base).withLabel i).map LineForm.code =
      (lexLabel (text.drop i)).bind fun found => (lexBody found.2).map fun b =>
        some (some (charSpan text base (i, i + found.1.length)),
          charSpan text base (b.mnemonicRange (i + (found.1.length + 1))),
          (b.operandRange (i + (found.1.length + 1))).map (charSpan text base)) := by
  rw [withLabel_lex, Option.map_bind]
  congr 1
  funext found
  rw [Function.comp_apply, Option.map_map]
  rfl

/-- Where the parts of a line sit, as the cursor reports them. -/
def code (p : Parts) : Option (Option Span × Span × Option Span) :=
  some (p.labelRange.map (charSpan text base), charSpan text base p.mnemonicRange,
    p.operandRange.map (charSpan text base))

/-- The order of the search: a label after all of the leading whitespace, no label,
and then labels that begin within it. -/
theorem statement_eq : (Cursor.new text base).statement =
    (((Cursor.new text base).withLabel (runLength isWhitespace text 0)).or
      ((Cursor.new text base).body (runLength isWhitespace text 0) none)).or
        ((List.range (runLength isWhitespace text 0)).reverse.findSome?
          (Cursor.new text base).withLabel) := by
  rw [statement]
  simp only [new_skipWhitespace, Nat.zero_add]
  rw [List.range_succ, List.reverse_append, List.reverse_singleton, List.singleton_append,
    statementLoop, if_pos rfl, statementLoop_below]
  · cases (Cursor.new text base).withLabel _ <;>
      cases (Cursor.new text base).body _ none <;> rfl
  · intro j hj
    rw [List.mem_reverse, List.mem_range] at hj
    omega

/-- A line in parts, as the cursor reports it. -/
def form (p : Parts) : LineForm :=
  .statement (p.labelRange.map (charSpan text base)) (charSpan text base p.mnemonicRange)
    (p.operandRange.map (charSpan text base))
    ((commentRange text.length p.body.tail).map (charSpan text base))

theorem first_lex :
    (((Cursor.new text base).withLabel (runLength isWhitespace text 0)).or
      ((Cursor.new text base).body (runLength isWhitespace text 0) none)) =
        (lexLine text).map (form text base) := by
  have hdrop := drop_runLength text isWhitespace 0
  rw [Nat.zero_add, List.drop_zero] at hdrop
  rw [withLabel_lex, body_lex, hdrop, lexLine]
  cases hlabel : lexLabel (text.dropWhile isWhitespace) with
  | none =>
    simp only [Option.bind_none, Option.none_or, Option.map_map]
    apply Option.map_congr
    intro b hb
    simp [form, Parts.labelRange, Parts.mnemonicRange, Parts.operandRange, Parts.bodyStart,
      Parts.labelText, runLength]
  | some found =>
    simp only [Option.bind_some]
    cases hbody : lexBody found.2 with
    | none =>
      simp only [Option.map_none, Option.none_or, Option.map_map]
      apply Option.map_congr
      intro b hb
      simp [form, Parts.labelRange, Parts.mnemonicRange, Parts.operandRange, Parts.bodyStart,
        Parts.labelText, runLength]
    | some b =>
      simp [form, Parts.labelRange, Parts.mnemonicRange, Parts.operandRange, Parts.bodyStart,
        Parts.labelText, runLength]

theorem first_code :
    (((Cursor.new text base).withLabel (runLength isWhitespace text 0)).or
      ((Cursor.new text base).body (runLength isWhitespace text 0) none)).map LineForm.code =
        (lexLine text).map (code text base) := by
  rw [first_lex, Option.map_map]
  rfl

end Cursor

end MarieRs.Asm
