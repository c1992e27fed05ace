import MarieRs.Asm.Ignored
import MarieRs.Asm.Spans

namespace MarieRs.Asm

/-- The first of so many lines that is after a given one and not blank. -/
def textAfter (lines : List Str) (count line : Nat) : Option Nat :=
  (List.range count).find? fun n =>
    decide (line < n) && (lines[n]?).any fun text => decide (trim text ≠ [])

/-- Where the line itself changes, what comes after it does not. -/
theorem textAfter_set (lines : List Str) {line line' : Nat} (h : line' < line) (count : Nat)
    (text : Str) : textAfter (lines.set line' text) count line = textAfter lines count line := by
  unfold textAfter
  congr 1
  funext n
  by_cases hn : line < n
  · have hne : line' ≠ n := by omega
    rw [List.getElem?_set_ne hne]
  · simp only [hn, decide_false, Bool.false_and]

variable {source : Str}

/-- What the parser has noted of `END` and of the text after it, `number` lines in. -/
structure Trails (source : Str) (number : Nat) (st : ParseState) : Prop where
  running : st.stopped = false → st.out.program.end_ = none ∧ st.out.program.trailing = none
  ended : ∀ end_ ∈ st.out.program.end_, end_.line < number ∧
    st.out.program.trailing.map (fun span => (LineIndex.new source).lineOf span.start) =
      textAfter (source.splitOn '\n') number end_.line

/-- A line that is parsed leaves no trailing text, and may be an `END`. -/
theorem parseForm_ends (source text : Str) {st : ParseState} (hrunning : st.stopped = false)
    (hend : st.out.program.end_ = none) :
    (parseForm source st text).out.program.trailing = st.out.program.trailing ∧
      ((parseForm source st text).stopped = false →
        (parseForm source st text).out.program.end_ = none) ∧
      ∀ end_ ∈ (parseForm source st text).out.program.end_, end_.line = st.lineNumber := by
  simp only [parseForm, parseOrigin, parseStatement, parseBody]
  repeat' first | split | simp [hend, hrunning]

theorem Trails.skips {number : Nat} {text : Str} {st : ParseState} (h : Trails source number st)
    (hstopped : st.stopped = true) (hnumber : st.lineNumber = number)
    (hline : AtLine source text st.lineNumber st.base) :
    Trails source (number + 1) (parseLine source st text) := by
  have htext : (source.splitOn '\n')[number]? = some text := hnumber ▸ hline.line
  have hnext : ∀ line < number, textAfter (source.splitOn '\n') (number + 1) line =
      (textAfter (source.splitOn '\n') number line).or
        (if trim text ≠ [] then some number else none) := by
    intro line hlt
    unfold textAfter
    rw [List.range_succ, List.find?_append, List.find?_singleton, htext]
    simp only [hlt, decide_true, Bool.true_and, Option.any_some, decide_eq_true_eq]
  rw [parseLine, if_pos hstopped]
  unfold skipLine
  split
  · rename_i hfirst
    refine ⟨fun hrunning => ?_, fun end_ hend => ?_⟩
    · rw [show st.stopped = false from hrunning] at hstopped
      cases hstopped
    · obtain ⟨hlt, htrailing⟩ := h.ended end_ hend
      refine ⟨Nat.lt_succ_of_lt hlt, ?_⟩
      rw [Option.isNone_iff_eq_none.mp hfirst.1, Option.map_none] at htrailing
      rw [hnext _ hlt, ← htrailing, Option.none_or, if_pos hfirst.2, ← hnumber]
      exact congrArg some hline.trimmed_on.lineOf
  · rename_i hnot
    refine ⟨fun hrunning => ?_, fun end_ hend => ?_⟩
    · rw [show st.stopped = false from hrunning] at hstopped
      cases hstopped
    · obtain ⟨hlt, htrailing⟩ := h.ended end_ hend
      refine ⟨Nat.lt_succ_of_lt hlt, ?_⟩
      rw [hnext _ hlt, ← htrailing]
      change st.out.program.trailing.map _ = (st.out.program.trailing.map _).or _
      cases hfound : st.out.program.trailing with
      | some span => rfl
      | none =>
        have hblank : ¬ trim text ≠ [] := fun hne => hnot ⟨by rw [hfound]; rfl, hne⟩
        rw [if_neg hblank]
        rfl

theorem Trails.step {number : Nat} {text : Str} {st : ParseState} (h : Trails source number st)
    (hnumber : st.lineNumber = number) (hline : AtLine source text st.lineNumber st.base) :
    Trails source (number + 1) (parseLine source st text) := by
  cases hstopped : st.stopped with
  | true => exact h.skips hstopped hnumber hline
  | false =>
    obtain ⟨hend, htrailing⟩ := h.running hstopped
    obtain ⟨hkept, hgoes, hends⟩ := parseForm_ends source text hstopped hend
    rw [parseLine, if_neg (by rw [hstopped]; exact Bool.false_ne_true)]
    refine ⟨fun hrunning => ⟨hgoes hrunning, hkept.trans htrailing⟩, fun end_ hfound => ?_⟩
    have hlast := hends end_ hfound
    rw [hnumber] at hlast
    refine ⟨by omega, ?_⟩
    -- an `END` on the line just parsed has no lines after it yet
    have hnone : textAfter (source.splitOn '\n') (number + 1) end_.line = none := by
      unfold textAfter
      rw [List.find?_eq_none]
      intro n hn
      rw [List.mem_range] at hn
      have hnot : ¬ end_.line < n := by omega
      simp only [hnot, decide_false, Bool.false_and, Bool.false_eq_true, not_false_iff]
    rw [hnone]
    change (parseForm source st text).out.program.trailing.map _ = none
    rw [hkept, htrailing]
    rfl

theorem stateUpTo_trails {number : Nat} (h : number ≤ (source.splitOn '\n').length) :
    Trails source number (stateUpTo source number) := by
  induction number with
  | zero => exact ⟨fun _ => ⟨rfl, rfl⟩, fun end_ hend => by cases hend⟩
  | succ number ih =>
    obtain ⟨text, htext⟩ : ∃ text, (source.splitOn '\n')[number]? = some text :=
      ⟨_, List.getElem?_eq_getElem (Nat.lt_of_succ_le h)⟩
    rw [stateUpTo_succ htext]
    exact (ih (Nat.le_of_succ_le h)).step (stateUpTo_place (Nat.le_of_succ_le h)).1
      (stateUpTo_atLine htext)

/-- The text after an `END` begins on the first line after it that is not blank. -/
theorem trailing_line {end_ : End} (h : (assemble source).program.end_ = some end_) :
    (assemble source).program.trailing.map
        (fun span => (LineIndex.new source).lineOf span.start) =
      textAfter (source.splitOn '\n') (source.splitOn '\n').length end_.line := by
  have htrails := stateUpTo_trails (le_refl (source.splitOn '\n').length)
  rw [stateUpTo, List.take_length] at htrails
  exact (htrails.ended end_ h).2

end MarieRs.Asm
