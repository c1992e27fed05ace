import MarieRs.Asm.LineRegex

namespace MarieRs.Asm

open Lib.Backtracking Regex

/-! The cursor's search is the backtracking search with the branches left out
that cannot succeed. -/

variable (text : Str) (base : Nat)

theorem whitespace_not_slash {c : Char} (h : isWhitespace c = true) : (c == '/') = false := by
  simpa using whitespace_all (fun c => !(c == '/')) (by decide) h

theorem whitespace_not_word {c : Char} (h : isWhitespace c = true) : isWordChar c = false := by
  simp [isWordChar, h]

theorem label_not_comma {c : Char} (h : isLabelChar c = true) : (c == ',') = false := by
  rw [beq_eq_false_iff_ne]
  rintro rfl
  revert h
  decide

theorem any_iff_runLength {p : Char → Bool} {i : Nat} :
    (text[i]?).any p = true ↔ runLength p text i ≠ 0 := by
  constructor
  · intro h
    obtain ⟨a, ha, hp⟩ : ∃ a, text[i]? = some a ∧ p a = true := by
      simpa [Option.any_eq_true] using h
    rw [runLength_of_pos ha hp]
    omega
  · intro h
    obtain ⟨a, ha, hp⟩ := mem_run (Nat.pos_of_ne_zero h)
    rw [Nat.add_zero] at ha
    simp [ha, hp]

theorem runLength_all (i : Nat) : runLength (fun _ => true) text i = text.length - i := by
  rw [runLength, List.takeWhile_eq_self_iff.mpr (fun _ _ => rfl), List.length_drop]

/-- Where the tail's comment sits, if the tail matches at all. -/
def tailEnd (i : Nat) : Option (Option (Nat × Nat)) :=
  let stop := i + runLength isWhitespace text i
  match text[stop]? with
  | none => some none
  | some '/' => some (some (stop, text.length))
  | some _ => none

/-- The captures that a part of a match adds, if it took part. -/
def added (part : Part) (range : Option (Nat × Nat)) : List (Part × Nat × Nat) :=
  (range.map (part, ·)).toList

theorem Cursor.tail_eq (i : Nat) :
    (Cursor.new text base).tail i = (tailEnd text i).map (Option.map (charSpan text base)) := by
  simp only [Cursor.tail, tailEnd, Cursor.new_skipWhitespace, Cursor.new_at, Cursor.new_span,
    Cursor.new_len]
  generalize text[i + runLength isWhitespace text i]? = next
  split <;> simp_all

theorem Cursor.blank_eq :
    (Cursor.new text base).blank = ((Cursor.new text base).tail 0).map LineForm.blank := by
  simp only [Cursor.blank, Cursor.tail]
  generalize (Cursor.new text base).at_ _ = next
  split <;> rfl

/-- `(?<comment>/.*)` -/
def commentRegex : Regex Char Part :=
  group .comment (seq (set (· == '/')) (star false (set fun _ => true)))

variable {β : Type}

/-- A comment reaches to the end of the line. -/
theorem run_comment (m : Match Part) (k : Kont Part β) (hslash : text[m.pos]? = some '/') :
    (run text commentRegex m fun m' => if m'.pos = m.pos then none else run text stop m' k) =
      k ⟨text.length, (.comment, m.pos, text.length) :: m.captures⟩ := by
  have hlt := (List.getElem?_eq_some_iff.mp hslash).choose
  rw [commentRegex, run_group, run_seq, run_set_of_mem hslash (by rfl), run_star_of_refuses]
  · simp only [runLength_all, advance_pos, advance_captures, advance_advance]
    rw [if_neg (by omega), run_stop_of_end (by simp; omega)]
    rw [show m.pos + (1 + (text.length - (m.pos + 1))) = text.length by omega]
  · intro m' a ha _
    change (if m'.pos = m.pos then none else run text stop _ k) = none
    split
    · rfl
    · exact run_stop_of_more ha

/-- Whitespace is never given back to the tail. -/
theorem run_tail (f : List (Part × Nat × Nat) → β) (m : Match Part) :
    run text tailRegex m (fun m => some (f m.captures)) =
      (tailEnd text m.pos).map (fun comment => f (added .comment comment ++ m.captures)) := by
  have hrefuses : ∀ k : Kont Part β, Refuses text isWhitespace fun m =>
      run text (seq (opt commentRegex) stop) m k := fun k =>
    refuses_opt (fun _ => refuses_group fun _ => refuses_seq fun _ =>
      refuses_set fun _ => whitespace_not_slash) refuses_stop
  change run text (seq (star false (set isWhitespace)) (seq (opt commentRegex) stop)) m _ = _
  rw [run_seq, run_star_of_refuses (hrefuses _), run_seq, run_opt, tailEnd]
  simp only [advance_pos]
  cases hi : text[m.pos + runLength isWhitespace text m.pos]? with
  | none =>
    rw [commentRegex, run_group, run_seq, run_set_of_not_mem (by simp [hi]), run_stop_of_end hi]
    rfl
  | some c =>
    by_cases hc : c = '/'
    · subst hc
      have hcomment := run_comment text (m.advance (runLength isWhitespace text m.pos))
        (fun m => some (f m.captures)) hi
      simp only [advance_pos] at hcomment
      rw [hcomment]
      rfl
    · rw [commentRegex, run_group, run_seq, run_set_of_not_mem (by simp [hi, hc]),
        run_stop_of_more hi]
      split
      · simp_all
      · simp_all
      · rfl

/-- A loop over candidate ends that gives up at the first character no word can
cover tries the lengths of the word from the shortest up. -/
theorem lazy_loop {loop : List Nat → Option β} (f : Nat → Option β) (hnil : loop [] = none)
    (hcons : ∀ stop rest c, text[stop - 1]? = some c → loop (stop :: rest) =
      if isWhitespace c || c == ',' then none else (f stop).or (loop rest)) (i : Nat) :
    loop (List.range' (i + 1) (text.length - i)) =
      (List.range' 1 (runLength isWordChar text i)).findSome? (fun j => f (i + j)) := by
  induction hn : text.length - i generalizing i with
  | zero =>
    have hi : text[i]? = none := by
      rw [List.getElem?_eq_none_iff]
      omega
    rw [runLength_of_neg (by simp [hi])]
    exact hnil
  | succ n ih =>
    obtain ⟨c, hc⟩ : ∃ c, text[i]? = some c := ⟨_, List.getElem?_eq_getElem (by omega)⟩
    rw [List.range'_succ, hcons (i + 1) _ c hc]
    by_cases hword : isWordChar c = true
    · have hgo : (isWhitespace c || c == ',') = false := by
        simpa [isWordChar] using hword
      rw [hgo, ih (i + 1) (by omega), runLength_of_pos hc hword, List.range'_succ,
        List.findSome?_cons, List.range'_eq_map_range, List.range'_eq_map_range,
        List.findSome?_map, List.findSome?_map]
      simp only [Bool.false_eq_true, if_false, Function.comp_def, Nat.add_assoc]
      cases f (i + 1) <;> rfl
    · have hstop : (isWhitespace c || c == ',') = true := by
        by_contra hgo
        exact hword (by simpa [isWordChar] using hgo)
      rw [if_pos hstop, runLength_of_neg (fun b hb => by rw [hc] at hb; cases hb; simpa using hword)]
      rfl

theorem Cursor.operandLoop_eq (i : Nat) :
    (Cursor.new text base).operandLoop i (List.range' (i + 1) (text.length - i)) =
      (List.range' 1 (runLength isWordChar text i)).findSome? fun j =>
        ((Cursor.new text base).tail (i + j)).map fun comment =>
          (some (charSpan text base (i, i + j)), comment) := by
  refine lazy_loop text (fun stop => ((Cursor.new text base).tail stop).map fun comment =>
    (some (charSpan text base (i, stop)), comment)) ?_ (fun stop rest c hc => ?_) i
  · rfl
  simp only [Cursor.operandLoop, Cursor.new_at, hc, Cursor.new_span]
  split
  · rfl
  · cases (Cursor.new text base).tail stop <;> rfl

theorem Cursor.mnemonicLoop_eq (label : Option Span) (i : Nat) :
    (Cursor.new text base).mnemonicLoop label i (List.range' (i + 1) (text.length - i)) =
      (List.range' 1 (runLength isWordChar text i)).findSome? fun j =>
        ((Cursor.new text base).afterMnemonic (i + j)).map fun found =>
          .statement label (charSpan text base (i, i + j)) found.1 found.2 := by
  refine lazy_loop text (fun stop => ((Cursor.new text base).afterMnemonic stop).map fun found =>
    LineForm.statement label (charSpan text base (i, stop)) found.1 found.2) ?_
    (fun stop rest c hc => ?_) i
  · rfl
  simp only [Cursor.mnemonicLoop, Cursor.new_at, hc, Cursor.new_span]
  split
  · rfl
  · cases (Cursor.new text base).afterMnemonic stop <;> rfl

/-- The continuation that reads the statement off the captures. -/
def intoStatement : Kont Part LineForm := fun m => some (statementForm text base m.captures)

/-- After an operator come an operand, if there is one, and the tail. -/
theorem run_afterMnemonic {label : Option Span} {mnemonic : Span} (m : Match Part)
    (hform : ∀ operand comment,
      statementForm text base (added .comment comment ++ (added .operand operand ++ m.captures)) =
        .statement label mnemonic (operand.map (charSpan text base))
          (comment.map (charSpan text base))) :
    run text (seq (opt operandRegex) tailRegex) m (intoStatement text base) =
      ((Cursor.new text base).afterMnemonic m.pos).map fun found =>
        .statement label mnemonic found.1 found.2 := by
  have htail : ∀ operand (m' : Match Part), m'.captures = added .operand operand ++ m.captures →
      run text tailRegex m' (intoStatement text base) =
        ((Cursor.new text base).tail m'.pos).map fun comment =>
          .statement label mnemonic (operand.map (charSpan text base)) comment := by
    intro operand m' hm'
    change run text tailRegex m' (fun m => some (statementForm text base m.captures)) = _
    rw [run_tail, Cursor.tail_eq, Option.map_map, hm']
    congr
    funext comment
    exact hform operand comment
  have hrefuses : ∀ k : Kont Part LineForm, Refuses text isWhitespace fun m =>
      run text (group .operand (plus true (set isWordChar))) m k := fun k =>
    refuses_group fun _ => refuses_seq fun _ => refuses_set fun _ => whitespace_not_word
  rw [run_seq, run_opt, operandRegex, run_seq, run_plus_of_refuses (hrefuses _),
    Cursor.afterMnemonic, htail none m rfl]
  by_cases hw : runLength isWhitespace text m.pos = 0
  · have hany : ¬ (text[m.pos]?).any isWhitespace = true := by
      rw [any_iff_runLength]
      exact not_not.mpr hw
    rw [if_pos hw]
    simp only [Cursor.new_at, hany]
    simp
    rfl
  · have hany : (text[m.pos]?).any isWhitespace = true := any_iff_runLength text |>.mpr hw
    rw [if_neg hw, run_group, run_plus_lazy]
    simp only [Cursor.new_at, hany, if_true, Cursor.new_skipWhitespace, Cursor.new_len,
      Cursor.operandLoop_eq, advance_pos, advance_captures, advance_advance]
    generalize hstart : m.pos + runLength isWhitespace text m.pos = i
    have hbeyond : ∀ j, ¬ i + j = m.pos := fun j => by omega
    simp only [← Nat.add_assoc, hstart, if_neg (hbeyond _)]
    generalize hfound : List.findSome? (fun j =>
        ((Cursor.new text base).tail (i + j)).map fun comment =>
          (some (charSpan text base (i, i + j)), comment))
      (List.range' 1 (runLength isWordChar text i)) = found
    -- every length of the operand leads to the same tail on both sides
    have hloop : List.findSome? (fun j => run text tailRegex
          ⟨i + j, (.operand, i, i + j) :: m.captures⟩ (intoStatement text base))
        (List.range' 1 (runLength isWordChar text i)) =
        found.map fun found => .statement label mnemonic found.1 found.2 := by
      rw [← hfound, List.map_findSome?]
      congr
      funext j
      rw [htail (some (i, i + j)) _ rfl, Function.comp_apply, Option.map_map]
      rfl
    rw [hloop]
    cases found with
    | none =>
      rw [Option.map_none, Option.none_or, Option.map_map]
      rfl
    | some found => rfl

/-- The body: leading whitespace, a lazily found operator, and what follows it. -/
theorem run_body {label : Option Span} (m : Match Part)
    (hform : ∀ operator operand comment,
      statementForm text base (added .comment comment ++
          (added .operand operand ++ (.operator, operator) :: m.captures)) =
        .statement label (charSpan text base operator) (operand.map (charSpan text base))
          (comment.map (charSpan text base))) :
    run text bodyRegex m (intoStatement text base) =
      (Cursor.new text base).body m.pos label := by
  have hrefuses : ∀ k : Kont Part LineForm, Refuses text isWhitespace fun m =>
      run text (group .operator (plus true (set isWordChar))) m k := fun k =>
    refuses_group fun _ => refuses_seq fun _ => refuses_set fun _ => whitespace_not_word
  rw [bodyRegex, run_seq, run_star_of_refuses, run_seq, run_group, run_plus_lazy, Cursor.body]
  · simp only [Cursor.new_skipWhitespace, Cursor.new_len, Cursor.mnemonicLoop_eq, advance_pos,
      advance_captures, advance_advance]
    generalize hstart : m.pos + runLength isWhitespace text m.pos = i
    simp only [← Nat.add_assoc, hstart]
    congr
    funext j
    exact run_afterMnemonic text base ⟨i + j, (.operator, i, i + j) :: m.captures⟩
      (fun operand comment => hform (i, i + j) operand comment)
  · exact refuses_seq hrefuses

/-- The label group gives nothing back: only its whole run can meet the comma. -/
theorem run_label (m : Match Part) (hm : m.captures = []) :
    (run text labelRegex m fun m' =>
        if m'.pos = m.pos then none else run text bodyRegex m' (intoStatement text base)) =
      (Cursor.new text base).withLabel m.pos := by
  have hrefuses : ∀ k : Kont Part LineForm, Refuses text isLabelChar fun m' =>
      run text (set (· == ',')) { m' with captures := (.label, m.pos, m'.pos) :: m'.captures } k :=
    fun k m' a ha hp => refuses_set (fun _ => label_not_comma) _ a ha hp
  have hlength : (((Cursor.new text base).chars.drop m.pos).takeWhile
      (fun p => p.2 != ',' && p.2 != '/')).length = runLength isLabelChar text m.pos :=
    Cursor.new_takeWhile text base isLabelChar m.pos
  rw [labelRegex, run_seq, run_group, run_plus_of_refuses (hrefuses _), Cursor.withLabel, hlength]
  simp only [Cursor.new_at, Cursor.new_span, advance_pos, advance_captures, hm]
  generalize runLength isLabelChar text m.pos = n
  by_cases hn : n = 0
  · rw [if_pos hn, if_pos (.inr (by omega))]
  · rw [if_neg hn]
    by_cases hcomma : text[m.pos + n]? = some ','
    · rw [if_neg (by simp [hcomma, hn]), run_set_of_mem hcomma (by rfl)]
      change (if m.pos + n + 1 = m.pos then none else run text bodyRegex _ _) = _
      rw [if_neg (by omega)]
      exact run_body text base _ fun operator operand comment => by
        cases operand <;> cases comment <;> rfl
    · rw [if_pos (.inl hcomma), run_set_of_not_mem]
      intro c hc
      simp only [beq_eq_false_iff_ne]
      rintro rfl
      exact hcomma hc

/-- Taking less of the leading whitespace leads to the same body. -/
theorem run_body_leading {j : Nat} (hj : j ≤ runLength isWhitespace text 0) :
    run text bodyRegex ⟨j, []⟩ (intoStatement text base) =
      (Cursor.new text base).body (runLength isWhitespace text 0) none := by
  have hbody : run text bodyRegex ⟨j, []⟩ (intoStatement text base) =
      (Cursor.new text base).body j none :=
    run_body text base ⟨j, []⟩ fun operator operand comment => by
      cases operand <;> cases comment <;> rfl
  have hinside := runLength_inside hj
  have hend : runLength isWhitespace text 0 +
      runLength isWhitespace text (0 + runLength isWhitespace text 0) =
        runLength isWhitespace text 0 := runLength_inside le_rfl
  rw [Nat.zero_add] at hinside hend
  rw [hbody]
  simp only [Cursor.body, Cursor.new_skipWhitespace]
  rw [hinside, hend]

/-- Below the full leading whitespace only a label is tried. -/
theorem Cursor.statementLoop_below {c : Cursor} {leading : Nat} {candidates : List Nat}
    (h : ∀ j ∈ candidates, j ≠ leading) :
    c.statementLoop leading candidates = candidates.findSome? c.withLabel := by
  induction candidates with
  | nil => rfl
  | cons taken rest ih =>
    rw [Cursor.statementLoop, List.findSome?_cons, if_neg (h taken List.mem_cons_self),
      ih fun j hj => h j (List.mem_cons_of_mem _ hj)]
    cases c.withLabel taken <;> rfl

theorem findSome?_congr {f g : Nat → Option β} {l : List Nat} (h : ∀ j ∈ l, f j = g j) :
    l.findSome? f = l.findSome? g := by
  induction l with
  | nil => rfl
  | cons a l ih =>
    rw [List.findSome?_cons, List.findSome?_cons, h a List.mem_cons_self,
      ih fun j hj => h j (List.mem_cons_of_mem _ hj)]

/-- A fallback that every attempt shares needs trying once. -/
theorem findSome?_or (f : Nat → Option β) (fallback : Option β) (first : Nat) (rest : List Nat) :
    (first :: rest).findSome? (fun j => (f j).or fallback) =
      ((f first).or fallback).or (rest.findSome? f) := by
  cases fallback with
  | none =>
    simp only [Option.or_none, List.findSome?_cons]
    cases f first <;> rfl
  | some b =>
    rw [List.findSome?_cons]
    cases f first <;> rfl

theorem run_statement :
    run text statementRegex ⟨0, []⟩ (intoStatement text base) =
      (Cursor.new text base).statement := by
  have hbranch : ∀ j ∈ (List.range (runLength isWhitespace text 0 + 1)).reverse,
      run text (seq (opt labelRegex) bodyRegex) ⟨j, []⟩ (intoStatement text base) =
        ((Cursor.new text base).withLabel j).or
          ((Cursor.new text base).body (runLength isWhitespace text 0) none) := by
    intro j hj
    rw [List.mem_reverse, List.mem_range] at hj
    rw [run_seq, run_opt, run_label text base ⟨j, []⟩ rfl, run_body_leading text base (by omega)]
  have hstart : run text statementRegex ⟨0, []⟩ (intoStatement text base) =
      run text (seq (star false (set isWhitespace)) (seq (opt labelRegex) bodyRegex)) ⟨0, []⟩
        (intoStatement text base) := rfl
  rw [hstart, run_seq, run_star_set, Cursor.statement]
  simp only [Bool.false_eq_true, if_false, Cursor.new_skipWhitespace, Nat.zero_add, Match.advance]
  rw [findSome?_congr hbranch, List.range_succ, List.reverse_append, List.reverse_singleton,
    List.singleton_append, findSome?_or, Cursor.statementLoop, if_pos rfl, Cursor.statementLoop_below]
  · cases (Cursor.new text base).withLabel _ <;>
      cases (Cursor.new text base).body _ none <;> rfl
  · intro j hj
    rw [List.mem_reverse, List.mem_range] at hj
    omega

theorem whitespace_not_o {c : Char} (h : isWhitespace c = true) : isLetter 'o' c = false := by
  simpa using whitespace_all (fun c => !isLetter 'o' c) (by decide) h

theorem whitespace_not_hexdigit {c : Char} (h : isWhitespace c = true) :
    isAsciiHexdigit c = false := by
  simpa using whitespace_all (fun c => !isAsciiHexdigit c) (by decide) h

theorem fits_org (rest : Str) :
    fits [isLetter 'o', isLetter 'r', isLetter 'g'] rest = true ↔
      3 ≤ rest.length ∧ eqIgnoreAsciiCase (rest.take 3) "org".toList = true := by
  rcases rest with _ | ⟨a, _ | ⟨b, _ | ⟨c, rest⟩⟩⟩
  · simp [fits]
  · simp [fits]
  · simp [fits]
  · simp [fits, isLetter, eqIgnoreAsciiCase, toAsciiLowercase]

theorem fits_hexdigits (rest : Str) :
    fits [isAsciiHexdigit, isAsciiHexdigit, isAsciiHexdigit] rest = true ↔
      3 ≤ rest.length ∧ (rest.take 3).all isAsciiHexdigit = true := by
  rcases rest with _ | ⟨a, _ | ⟨b, _ | ⟨c, rest⟩⟩⟩
  · simp [fits]
  · simp [fits]
  · simp [fits]
  · simp [fits]

/-- From the digits on. -/
theorem run_digits (keyword : Nat × Nat) (d : Nat) :
    (run text (seq (group .digits (word [isAsciiHexdigit, isAsciiHexdigit, isAsciiHexdigit]))
        tailRegex) ⟨d, [(.keyword, keyword)]⟩ fun m => some (originForm text base m.captures)) =
      if d + 3 > text.length then none
      else if ¬ ((Cursor.new text base).text d (d + 3)).all isAsciiHexdigit then none
      else
        match (Cursor.new text base).tail (d + 3) with
        | none => none
        | some comment =>
          some (.origin (charSpan text base keyword) (charSpan text base (d, d + 3)) comment) := by
  have hhex := fits_hexdigits (text.drop d)
  rw [List.length_drop] at hhex
  rw [run_seq, run_group, run_word, Cursor.new_text text base (Nat.le_add_right d 3),
    Nat.add_sub_cancel_left]
  by_cases hfits : fits [isAsciiHexdigit, isAsciiHexdigit, isAsciiHexdigit] (text.drop d) = true
  · obtain ⟨hlen, hdigit⟩ := hhex.mp hfits
    rw [if_pos hfits, if_neg (by omega), if_neg (not_not.mpr hdigit), run_tail, Cursor.tail_eq]
    change (tailEnd text (d + 3)).map _ = _
    cases tailEnd text (d + 3) with
    | none => rfl
    | some comment => cases comment <;> rfl
  · rw [if_neg hfits]
    by_cases hlen : d + 3 > text.length
    · rw [if_pos hlen]
    · rw [if_neg hlen, if_pos fun hdigit => hfits (hhex.mpr ⟨by omega, hdigit⟩)]

theorem run_origin :
    (run text originRegex ⟨0, []⟩ fun m => some (originForm text base m.captures)) =
      (Cursor.new text base).origin := by
  have hkeyword : ∀ k : Kont Part LineForm, Refuses text isWhitespace fun m =>
      run text (group .keyword (word [isLetter 'o', isLetter 'r', isLetter 'g'])) m k := fun k =>
    refuses_group fun _ => refuses_seq fun _ => refuses_set fun _ => whitespace_not_o
  have hdigits : ∀ k : Kont Part LineForm, Refuses text isWhitespace fun m =>
      run text (group .digits (word [isAsciiHexdigit, isAsciiHexdigit, isAsciiHexdigit])) m k :=
    fun k => refuses_group fun _ => refuses_seq fun _ => refuses_set fun _ =>
      whitespace_not_hexdigit
  have hstart : ∀ k : Kont Part LineForm, run text originRegex ⟨0, []⟩ k = run text
      (seq (star false (set isWhitespace))
        (seq (group .keyword (word [isLetter 'o', isLetter 'r', isLetter 'g']))
          (seq (plus false (set isWhitespace))
            (seq (group .digits (word [isAsciiHexdigit, isAsciiHexdigit, isAsciiHexdigit]))
              tailRegex)))) ⟨0, []⟩ k := fun _ => rfl
  rw [hstart, run_seq, run_star_of_refuses (refuses_seq hkeyword), run_seq, run_group, run_word,
    Cursor.origin]
  simp only [Cursor.new_skipWhitespace, Cursor.new_len, Cursor.new_at, Cursor.new_span,
    advance_pos, Nat.zero_add]
  generalize runLength isWhitespace text 0 = s
  have horg := fits_org (text.drop s)
  rw [List.length_drop] at horg
  rw [Cursor.new_text text base (Nat.le_add_right s 3), Nat.add_sub_cancel_left]
  by_cases hfits : fits [isLetter 'o', isLetter 'r', isLetter 'g'] (text.drop s) = true
  · obtain ⟨hlen, heq⟩ := horg.mp hfits
    rw [if_pos hfits, if_neg (not_or.mpr ⟨by omega, not_not.mpr heq⟩), run_seq,
      run_plus_of_refuses (refuses_seq hdigits)]
    change (if runLength isWhitespace text (s + 3) = 0 then none else
      run text _ ⟨s + 3 + runLength isWhitespace text (s + 3), [(Part.keyword, s, s + 3)]⟩
        _) = _
    by_cases hw : runLength isWhitespace text (s + 3) = 0
    · have hany : ¬ (text[s + 3]?).any isWhitespace = true := by
        rw [any_iff_runLength]
        exact not_not.mpr hw
      rw [if_pos hw, if_pos hany]
    · have hany : (text[s + 3]?).any isWhitespace = true := (any_iff_runLength text).mpr hw
      rw [if_neg hw, if_neg (not_not.mpr hany)]
      exact run_digits text base _ _
  · rw [if_neg hfits, if_pos]
    by_contra hgo
    rw [not_or, not_lt, not_not] at hgo
    exact hfits (horg.mpr ⟨by omega, hgo.2⟩)

theorem exec_blank :
    (exec blankRegex text).map (fun m => blankForm text base m.captures) =
      (Cursor.new text base).blank := by
  rw [blankRegex, exec_anchored, run_map]
  change run text tailRegex ⟨0, []⟩ (fun m => some (blankForm text base m.captures)) = _
  rw [run_tail, Cursor.blank_eq, Cursor.tail_eq, Option.map_map]
  congr
  funext comment
  cases comment <;> rfl

theorem exec_origin :
    (exec originRegex text).map (fun m => originForm text base m.captures) =
      (Cursor.new text base).origin := by
  rw [originRegex, exec_anchored, run_map]
  exact run_origin text base

theorem exec_statement :
    (exec statementRegex text).map (fun m => statementForm text base m.captures) =
      (Cursor.new text base).statement := by
  rw [statementRegex, exec_anchored, run_map]
  exact run_statement text base

/-- The line splitter is the three regular expressions. -/
theorem splitLine_eq_recognise : splitLine text base = recognise text base := by
  rw [splitLine, recognise]
  simp only [← exec_blank, ← exec_origin, ← exec_statement]
  cases exec blankRegex text with
  | some m => rfl
  | none =>
    cases exec originRegex text with
    | some m => rfl
    | none => cases exec statementRegex text <;> rfl

end MarieRs.Asm
