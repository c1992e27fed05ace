import MarieRs.Asm.Places

namespace MarieRs.Asm

theorem startsFrom_append (offset : Nat) (s t : Str) :
    LineIndex.startsFrom offset (s ++ t) =
      LineIndex.startsFrom offset s ++ LineIndex.startsFrom (offset + utf8Len s) t := by
  induction s generalizing offset with
  | nil => rfl
  | cons c s ih =>
    rw [List.cons_append, LineIndex.startsFrom, LineIndex.startsFrom, utf8Len_cons, ← Nat.add_assoc]
    split
    · rename_i hc
      have hsize : c.utf8Size = 1 := by
        rw [hc]
        decide
      rw [ih, hsize, List.cons_append]
    · exact ih _

theorem startsFrom_le {offset : Nat} {s : Str} :
    ∀ start ∈ LineIndex.startsFrom offset s, offset < start ∧ start ≤ offset + utf8Len s := by
  induction s generalizing offset with
  | nil => simp [LineIndex.startsFrom]
  | cons c s ih =>
    intro start hstart
    have hc := c.utf8Size_pos
    rw [LineIndex.startsFrom] at hstart
    rw [utf8Len_cons]
    split at hstart
    · rcases List.mem_cons.mp hstart with rfl | hstart
      · omega
      · have := ih start hstart
        omega
    · have := ih start hstart
      omega

theorem startsFrom_sorted (offset : Nat) (s : Str) :
    (LineIndex.startsFrom offset s).Pairwise (· < ·) := by
  induction s generalizing offset with
  | nil => exact .nil
  | cons c s ih =>
    rw [LineIndex.startsFrom]
    split
    · exact .cons (fun start hstart => (startsFrom_le start hstart).1) (ih _)
    · exact ih _

theorem idxOf?_past {init after : List Nat} {offset : Nat} (h : offset ∉ init) :
    (init ++ offset :: after).idxOf? offset = some init.length := by
  induction init with
  | nil => simp [List.idxOf?_cons]
  | cons start init ih =>
    rw [List.mem_cons, not_or] at h
    rw [List.cons_append, List.idxOf?_cons, ih h.2]
    simp [Ne.symm h.1]

/-- The line of an offset is the last one that starts at or before it. -/
theorem lineOf_eq {index : LineIndex} {before after : List Nat} {offset : Nat}
    (hstarts : index.lineStarts = before ++ after) (hne : before ≠ [])
    (hsorted : index.lineStarts.Pairwise (· < ·)) (hbefore : ∀ start ∈ before, start ≤ offset)
    (hafter : ∀ start ∈ after, offset < start) : index.lineOf offset = before.length - 1 := by
  obtain ⟨init, last, rfl⟩ : ∃ init last, before = init ++ [last] :=
    ⟨_, _, (List.dropLast_concat_getLast hne).symm⟩
  have hinit : ∀ start ∈ init, start < last := by
    intro start hstart
    rw [hstarts, List.append_assoc] at hsorted
    exact (List.pairwise_append.mp hsorted).2.2 start hstart last (by simp)
  have hlast : last ≤ offset := hbefore last (by simp)
  rw [LineIndex.lineOf, hstarts, List.length_append, List.length_singleton, Nat.add_sub_cancel]
  rcases hlast.eq_or_lt with rfl | hlt
  · have hfresh : last ∉ init := fun hmem => absurd (hinit last hmem) (lt_irrefl last)
    rw [List.append_assoc, List.singleton_append, idxOf?_past hfresh]
  · have hnone : ((init ++ [last]) ++ after).idxOf? offset = none := by
      rw [List.idxOf?_eq_none_iff]
      intro hmem
      rcases List.mem_append.mp hmem with hmem | hmem
      · rcases List.mem_append.mp hmem with hmem | hmem
        · exact absurd ((hinit offset hmem).trans hlt) (lt_irrefl offset)
        · exact absurd (List.mem_singleton.mp hmem) hlt.ne'
      · exact absurd (hafter offset hmem) (lt_irrefl offset)
    have hrest : after.takeWhile (· < offset) = [] := by
      cases after with
      | nil => rfl
      | cons start after =>
        have := hafter start List.mem_cons_self
        exact List.takeWhile_cons_of_neg (by simp only [decide_eq_true_eq]; omega)
    have htake : ((init ++ [last]) ++ after).takeWhile (· < offset) = init ++ [last] := by
      rw [List.takeWhile_append_of_pos, hrest, List.append_nil]
      · intro start hstart
        rcases List.mem_append.mp hstart with hstart | hstart
        · exact decide_eq_true ((hinit start hstart).trans hlt)
        · rw [List.mem_singleton.mp hstart]
          exact decide_eq_true hlt
    rw [hnone]
    simp only
    rw [htake, List.length_append, List.length_singleton, Nat.add_sub_cancel]

theorem startsFrom_whole {s : Str} {offset : Nat} (h : '\n' ∉ s) :
    LineIndex.startsFrom offset s = [] := by
  induction s generalizing offset with
  | nil => rfl
  | cons c s ih =>
    rw [List.mem_cons, not_or] at h
    rw [LineIndex.startsFrom, if_neg (Ne.symm h.1)]
    exact ih h.2

/-- The index knows where each line starts. -/
theorem lineStarts_get {first : Str} {rest : List Str} (h : ∀ line ∈ first :: rest, '\n' ∉ line)
    (offset number : Nat) :
    (offset :: LineIndex.startsFrom offset (List.intercalate ['\n'] (first :: rest)))[number]? =
      if number < (first :: rest).length then
        some (offset + utf8Len (joined ((first :: rest).take number)))
      else none := by
  induction rest generalizing first offset number with
  | nil =>
    have hfirst : List.intercalate ['\n'] [first] = first := by simp [List.intercalate]
    rw [hfirst, startsFrom_whole (h first (by simp))]
    cases number with
    | zero => rfl
    | succ number => simp
  | cons next rest ih =>
    cases number with
    | zero => rfl
    | succ number =>
      have hone : '\n'.utf8Size = 1 := by decide
      have hrest := ih (fun line hline => h line (List.mem_cons_of_mem _ hline))
        (offset + utf8Len first + 1) number
      rw [List.getElem?_cons_succ, intercalate_cons, startsFrom_append,
        startsFrom_whole (h first (by simp)), List.nil_append, LineIndex.startsFrom, if_pos rfl,
        hrest]
      simp only [List.length_cons, List.take_succ_cons, joined_cons, utf8Len_append, utf8Len_cons,
        hone, Nat.add_lt_add_iff_right, Nat.add_assoc]

theorem lines_cons (source : Str) : ∃ first rest, source.splitOn '\n' = first :: rest ∧
    List.intercalate ['\n'] (first :: rest) = source ∧ ∀ line ∈ first :: rest, '\n' ∉ line := by
  have hlines : ∀ line ∈ source.splitOn '\n', '\n' ∉ line := fun _ => splitOn_line
  have hjoin : List.intercalate ['\n'] (source.splitOn '\n') = source :=
    List.intercalate_splitOn '\n'
  cases hsplit : source.splitOn '\n' with
  | nil => exact absurd hsplit (List.splitOn_ne_nil _ _)
  | cons first rest =>
    rw [hsplit] at hlines hjoin
    exact ⟨first, rest, rfl, hjoin, hlines⟩

theorem lineStart_eq (source : Str) (number : Nat) :
    (LineIndex.new source).lineStart number =
      if number < (source.splitOn '\n').length then
        some (utf8Len (joined ((source.splitOn '\n').take number)))
      else none := by
  obtain ⟨first, rest, hsplit, hjoin, hlines⟩ := lines_cons source
  have hget := lineStarts_get hlines 0 number
  rw [hjoin, Nat.zero_add] at hget
  rw [hsplit]
  exact hget

theorem lineCount_eq (source : Str) :
    (LineIndex.new source).lineCount = (source.splitOn '\n').length := by
  have hstart := lineStart_eq source
  apply le_antisymm
  · have hnone := hstart (source.splitOn '\n').length
    rw [if_neg (lt_irrefl _)] at hnone
    exact List.getElem?_eq_none_iff.mp hnone
  · by_contra hlt
    have hsome := hstart (LineIndex.new source).lineCount
    rw [if_pos (not_le.mp hlt), LineIndex.lineStart, LineIndex.lineCount,
      List.getElem?_eq_none le_rfl] at hsome
    cases hsome

/-- The index knows the bytes of each line. -/
theorem line_span {source text : Str} {number base : Nat} (h : AtLine source text number base) :
    (LineIndex.new source).lineStart number = some base ∧
      (LineIndex.new source).lineEnd number = some (base + utf8Len text) := by
  have hlt : number < (source.splitOn '\n').length := (List.getElem?_eq_some_iff.mp h.line).1
  refine ⟨by rw [lineStart_eq, if_pos hlt, h.base], ?_⟩
  have hcount := lineCount_eq source
  have hnext := lineStart_eq source (number + 1)
  rw [LineIndex.lineStart] at hnext
  rw [LineIndex.lineEnd, if_neg (by omega), hnext]
  by_cases hlast : number + 1 < (source.splitOn '\n').length
  · rw [if_pos hlast]
    simp only [joined_take_succ h.line, ← h.base, Nat.add_sub_cancel]
  · rw [if_neg hlast]
    have hlines : (source.splitOn '\n').take number ++ [text] = source.splitOn '\n' := by
      have htake := List.take_add_one (l := source.splitOn '\n') (i := number)
      rw [h.line, List.take_of_length_le (by omega)] at htake
      exact htake.symm
    have hsource := intercalate_last ((source.splitOn '\n').take number) text
    rw [hlines, List.intercalate_splitOn] at hsource
    have hlength := congrArg utf8Len hsource
    rw [utf8Len_append, ← h.base] at hlength
    exact congrArg some hlength

variable {source : Str}

theorem lineStarts_sorted (source : Str) :
    (LineIndex.new source).lineStarts.Pairwise (· < ·) :=
  .cons (fun start hstart => (startsFrom_le start hstart).1) (startsFrom_sorted 0 source)

/-- The line of a byte is the line it is on, of which the end is a part. -/
theorem AtLine.lineOf_byte {text : Str} {number base offset : Nat}
    (h : AtLine source text number base) (hfrom : base ≤ offset)
    (hto : offset ≤ base + utf8Len text) : (LineIndex.new source).lineOf offset = number := by
  have hlt : number < (source.splitOn '\n').length := (List.getElem?_eq_some_iff.mp h.line).1
  have hcount := lineCount_eq source
  have hplace : ∀ i start, (LineIndex.new source).lineStarts[i]? = some start →
      ∃ line, AtLine source line i start := by
    intro i start hi
    have hstart := lineStart_eq source i
    rw [LineIndex.lineStart, hi] at hstart
    split at hstart
    · rename_i hlt
      cases hstart
      exact ⟨_, List.getElem?_eq_getElem hlt, rfl⟩
    · cases hstart
  have hnumber : ((LineIndex.new source).lineStarts.take (number + 1)).length - 1 = number := by
    rw [List.length_take]
    rw [LineIndex.lineCount] at hcount
    omega
  refine (lineOf_eq (List.take_append_drop (number + 1) _).symm ?_ (lineStarts_sorted source)
    ?_ ?_).trans hnumber
  · rw [ne_eq, List.take_eq_nil_iff]
    simp [LineIndex.new]
  · intro start hstart
    obtain ⟨i, hi⟩ := List.mem_iff_getElem?.mp hstart
    have hbound : i < number + 1 := by
      have hlength := (List.getElem?_eq_some_iff.mp hi).1
      rw [List.length_take] at hlength
      omega
    have hget : (LineIndex.new source).lineStarts[i]? = some start := by
      rw [← hi, List.getElem?_take_of_lt hbound]
    obtain ⟨line, hat⟩ := hplace i start hget
    rcases Nat.lt_or_eq_of_le (Nat.le_of_lt_succ hbound) with hearlier | rfl
    · have := hat.before h hearlier
      omega
    · rw [(hat.same h).2]
      exact hfrom
  · intro start hstart
    obtain ⟨i, hi⟩ := List.mem_iff_getElem?.mp hstart
    rw [List.getElem?_drop] at hi
    obtain ⟨line, hat⟩ := hplace _ start hi
    have := h.before hat (by omega)
    omega

theorem AtLine.lineOf {text front : Str} {number base : Nat} (h : AtLine source text number base)
    (hfront : front <+: text) :
    (LineIndex.new source).lineOf (base + utf8Len front) = number := by
  apply h.lineOf_byte (Nat.le_add_right _ _)
  obtain ⟨rest, rfl⟩ := hfront
  rw [utf8Len_append, ← Nat.add_assoc]
  exact Nat.le_add_right _ _

/-- Every byte is on a line. -/
theorem exists_line {offset : Nat} (h : offset ≤ utf8Len source) :
    ∃ text number base, AtLine source text number base ∧ base ≤ offset ∧
      offset ≤ base + utf8Len text := by
  let Starts (number : Nat) : Prop := number < (source.splitOn '\n').length ∧
    utf8Len (joined ((source.splitOn '\n').take number)) ≤ offset
  have hzero : Starts 0 := ⟨List.length_pos_iff.mpr (List.splitOn_ne_nil _ _), Nat.zero_le _⟩
  -- the last line that starts at the byte or before it
  obtain ⟨number, ⟨hlt, hle⟩, hlast⟩ : ∃ number, Starts number ∧ ¬Starts (number + 1) := by
    by_contra hnone
    have hall : ∀ number, Starts number := by
      intro number
      induction number with
      | zero => exact hzero
      | succ number ih => exact not_not.mp fun hnot => hnone ⟨number, ih, hnot⟩
    exact absurd (hall _).1 (lt_irrefl _)
  have hline : AtLine source (source.splitOn '\n')[number] number
      (utf8Len (joined ((source.splitOn '\n').take number))) :=
    ⟨List.getElem?_eq_getElem hlt, rfl⟩
  refine ⟨_, number, _, hline, hle, ?_⟩
  obtain ⟨-, hend⟩ := line_span hline
  have hcount := lineCount_eq source
  rw [LineIndex.lineEnd, if_neg (by omega)] at hend
  split at hend
  · rename_i next hnext
    have hstart := lineStart_eq source (number + 1)
    rw [LineIndex.lineStart, hnext] at hstart
    split at hstart
    · rename_i hsucc
      have hend := Option.some.inj hend
      have hstart := Option.some.inj hstart
      have : ¬utf8Len (joined ((source.splitOn '\n').take (number + 1))) ≤ offset :=
        fun hle => hlast ⟨hsucc, hle⟩
      omega
    · cases hstart
  · have hend : utf8Len source = _ := Option.some.inj hend
    omega

end MarieRs.Asm
