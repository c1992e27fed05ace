import MarieRs.Asm.LineStarts
import MarieRs.Lsp.Navigation

namespace MarieRs.Lsp

open Asm (Span LineIndex lineOf_eq startsFrom_append startsFrom_le startsFrom_sorted
  startsFrom_whole)
open Lib.Splice (walk)

/-! A client that walks over the text meets every offset at the position the server
gives it. -/

theorem advance_lt (encoding : PositionEncoding) (p : Position) (c : Char) :
    p < advance encoding p c := by
  have hlt : toLex (p.line, p.character) <
      toLex ((advance encoding p c).line, (advance encoding p c).character) := by
    rw [Prod.Lex.toLex_lt_toLex]
    rw [advance]
    split
    · exact .inl (Nat.lt_succ_self _)
    · exact .inr ⟨rfl, Nat.lt_add_of_pos_right (encoding.width_pos c)⟩
  exact hlt

/-- Any text is a number of whole lines and the beginning of another. -/
theorem last_line (s : Str) : ∃ whole rest, s = whole ++ rest ∧ '\n' ∉ rest ∧
    (whole = [] ∨ ∃ init, whole = init ++ ['\n']) := by
  induction s using List.reverseRecOn with
  | nil => exact ⟨[], [], rfl, by simp, .inl rfl⟩
  | append_singleton s c ih =>
    obtain ⟨whole, rest, rfl, hrest, hwhole⟩ := ih
    by_cases hc : c = '\n'
    · exact ⟨whole ++ rest ++ [c], [], by simp, by simp, .inr ⟨whole ++ rest, by rw [hc]⟩⟩
    · refine ⟨whole, rest ++ [c], by simp, ?_, hwhole⟩
      simp [hrest, Ne.symm hc]

theorem walk_rest {encoding : PositionEncoding} {s : Str} (h : '\n' ∉ s) (line : Nat) :
    walk (advance encoding) ⟨line, 0⟩ s = ⟨line, encoding.measure s⟩ := by
  induction s using List.reverseRecOn with
  | nil => simp
  | append_singleton s c ih =>
    rw [List.mem_append, not_or, List.mem_singleton] at h
    rw [Lib.Splice.walk_append, ih h.1, encoding.measure_append_singleton, Lib.Splice.walk_cons,
      Lib.Splice.walk_nil, advance, if_neg (Ne.symm h.2)]

theorem walk_line (encoding : PositionEncoding) (s : Str) (p : Position) (offset : Nat) :
    (walk (advance encoding) p s).line = p.line + (LineIndex.startsFrom offset s).length := by
  induction s generalizing p offset with
  | nil => rfl
  | cons c s ih =>
    rw [Lib.Splice.walk_cons, LineIndex.startsFrom]
    by_cases hc : c = '\n'
    · rw [if_pos hc, ih _ (offset + 1), List.length_cons, advance, if_pos hc]
      simp only
      omega
    · rw [if_neg hc, ih _ (offset + c.utf8Size), advance, if_neg hc]

/-- The server gives the end of a text the position at which a client arrives there. -/
theorem position_walk (encoding : PositionEncoding) (before after : Str) :
    (Positions.mk (before ++ after) (.new (before ++ after)) encoding).position (utf8Len before) =
      walk (advance encoding) ⟨0, 0⟩ before := by
  obtain ⟨whole, rest, rfl, hrest, hwhole⟩ := last_line before
  have hstarts : (LineIndex.new ((whole ++ rest) ++ after)).lineStarts =
      (0 :: LineIndex.startsFrom 0 whole) ++
        LineIndex.startsFrom (utf8Len (whole ++ rest)) after := by
    rw [LineIndex.new, startsFrom_append, startsFrom_append, startsFrom_whole hrest,
      List.append_nil, Nat.zero_add]
    rfl
  have hsorted : (LineIndex.new ((whole ++ rest) ++ after)).lineStarts.Pairwise (· < ·) :=
    .cons (fun start hstart => (startsFrom_le start hstart).1) (startsFrom_sorted 0 _)
  have hline : (LineIndex.new ((whole ++ rest) ++ after)).lineOf (utf8Len (whole ++ rest)) =
      (LineIndex.startsFrom 0 whole).length := by
    rw [lineOf_eq hstarts (by simp) hsorted, List.length_cons, Nat.add_sub_cancel]
    · intro start hstart
      rw [utf8Len_append]
      rcases List.mem_cons.mp hstart with rfl | hstart
      · omega
      · have := startsFrom_le start hstart
        omega
    · intro start hstart
      exact (startsFrom_le start hstart).1
  have hstart : (0 :: LineIndex.startsFrom 0 whole)[(LineIndex.startsFrom 0 whole).length]? =
      some (utf8Len whole) := by
    rcases hwhole with rfl | ⟨init, rfl⟩
    · rfl
    · have hnewline : LineIndex.startsFrom (0 + utf8Len init) ['\n'] =
          [utf8Len (init ++ ['\n'])] := by
        have hsize : '\n'.utf8Size = 1 := by decide
        simp [LineIndex.startsFrom, hsize]
      rw [startsFrom_append, hnewline]
      simp
  have hwalk : walk (advance encoding) ⟨0, 0⟩ whole =
      ⟨(LineIndex.startsFrom 0 whole).length, 0⟩ := by
    have hcount := walk_line encoding whole ⟨0, 0⟩ 0
    rw [Nat.zero_add] at hcount
    rcases hwhole with rfl | ⟨init, rfl⟩
    · rfl
    · rw [← hcount, Lib.Splice.walk_append, Lib.Splice.walk_cons, Lib.Splice.walk_nil, advance,
        if_pos rfl]
  have hslice : sliceBytes ((whole ++ rest) ++ after) (utf8Len whole) (utf8Len (whole ++ rest)) =
      some rest := by
    rw [utf8Len_append, sliceBytes_append]
  rw [Lib.Splice.walk_append, hwalk, walk_rest hrest]
  simp only [Positions.position, hline, LineIndex.lineStart, hstarts]
  rw [List.getElem?_append_left (by simp), hstart, Option.getD_some, hslice, Option.getD_some]

end MarieRs.Lsp
