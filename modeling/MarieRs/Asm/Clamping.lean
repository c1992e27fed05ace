import MarieRs.Asm.LineStarts

namespace MarieRs.Asm

abbrev U32 := BitVec 32

/-- In a release build an overflow wraps around, in any other it panics. -/
inductive Build where
  | debug | release
  deriving DecidableEq, Repr

inductive Panic where
  | overflow | outOfBounds
  deriving DecidableEq, Repr

namespace Build

def add (build : Build) (a b : U32) : Except Panic U32 :=
  if a.toNat + b.toNat < 2 ^ 32 ∨ build = .release then .ok (a + b) else .error .overflow

def sub (build : Build) (a b : U32) : Except Panic U32 :=
  if b ≤ a ∨ build = .release then .ok (a - b) else .error .overflow

theorem add_ok (build : Build) {a b : U32} (h : a.toNat + b.toNat < 2 ^ 32) :
    build.add a b = .ok (a + b) := if_pos (.inl h)

theorem sub_ok (build : Build) {a b : U32} (h : b ≤ a) : build.sub a b = .ok (a - b) :=
  if_pos (.inl h)

end Build

structure Position32 where
  line : U32
  column : U32
  deriving DecidableEq, Repr

structure LineIndex32 where
  lineStarts : List U32
  length : U32
  deriving DecidableEq, Repr

namespace LineIndex32

/-- `offset as u32 + 1` at each newline, counting bytes from `offset`. -/
def startsFrom (build : Build) : Nat → Str → Except Panic (List U32)
  | _, [] => .ok []
  | offset, c :: s =>
    if c = '\n' then
      match build.add (BitVec.ofNat 32 offset) 1 with
      | .error panic => .error panic
      | .ok start => (startsFrom build (offset + 1) s).map (start :: ·)
    else startsFrom build (offset + c.utf8Size) s

def new (build : Build) (source : Str) : Except Panic LineIndex32 :=
  (startsFrom build 0 source).map fun starts => ⟨0 :: starts, BitVec.ofNat 32 (utf8Len source)⟩

def lineCount (index : LineIndex32) : U32 := BitVec.ofNat 32 index.lineStarts.length

def lineStart (index : LineIndex32) (line : U32) : Option U32 := index.lineStarts[line.toNat]?

/-- `binary_search` on sorted starts, as in `LineIndex.lineOf`. -/
def lineOf (index : LineIndex32) (build : Build) (offset : U32) : Except Panic U32 :=
  match index.lineStarts.idxOf? offset with
  | some line => .ok (BitVec.ofNat 32 line)
  | none => build.sub (BitVec.ofNat 32 (index.lineStarts.takeWhile (· < offset)).length) 1

/-- The column is a `saturating_sub`. -/
def position (index : LineIndex32) (build : Build) (offset : U32) : Except Panic Position32 :=
  match index.lineOf build offset with
  | .error panic => .error panic
  | .ok line =>
    match index.lineStarts[line.toNat]? with
    | none => .error .outOfBounds
    | some start => .ok ⟨line, if start ≤ offset then offset - start else 0⟩

def lineEnd (index : LineIndex32) (build : Build) (line : U32) : Except Panic (Option U32) :=
  if line ≥ index.lineCount then .ok none
  else
    match index.lineStarts[line.toNat + 1]? with
    | some next => (build.sub next 1).map some
    | none => .ok (some index.length)

/-- The sum is made before it is clamped. -/
def offset (index : LineIndex32) (build : Build) (position : Position32) :
    Except Panic (Option U32) :=
  match index.lineStart position.line with
  | none => .ok none
  | some start =>
    match index.lineEnd build position.line with
    | .error panic => .error panic
    | .ok none => .ok none
    | .ok (some stop) =>
      (build.add start position.column).map fun sum => some (if sum ≤ stop then sum else stop)

/-- The offset of a position is inside its line, at the column or at the end of the line. -/
def Clamps (index : LineIndex32) (build : Build) (position : Position32) : Prop :=
  ∃ start stop offset, index.lineStart position.line = some start ∧
    index.lineEnd build position.line = .ok (some stop) ∧
    index.offset build position = .ok (some offset) ∧ start ≤ offset ∧ offset ≤ stop ∧
    offset.toNat = min (start.toNat + position.column.toNat) stop.toNat

/-- The column is only clamped to the end of the line if adding it does not overflow. -/
theorem clamps_iff {index : LineIndex32} (build : Build) {position : Position32} {start : U32}
    (hstart : index.lineStart position.line = some start) :
    index.Clamps build position ↔
      (∃ stop, index.lineEnd build position.line = .ok (some stop) ∧ start ≤ stop) ∧
        start.toNat + position.column.toNat < 2 ^ 32 := by
  constructor
  · rintro ⟨start', stop, offset, hstart', hstop, hoffset, hlower, hupper, -⟩
    rw [hstart] at hstart'
    cases hstart'
    refine ⟨⟨stop, hstop, BitVec.le_trans hlower hupper⟩, ?_⟩
    by_contra hover
    simp only [LineIndex32.offset, hstart, hstop, Build.add] at hoffset
    split at hoffset
    · -- the sum has wrapped around to before the line
      have hwraps : (start + position.column).toNat < start.toNat := by
        rw [BitVec.toNat_add]
        omega
      have hsum : offset ≤ start + position.column := by
        cases hoffset
        split
        · exact BitVec.le_refl _
        · rename_i hnot
          exact BitVec.le_of_lt (BitVec.not_le.mp hnot)
      rw [BitVec.le_def] at hlower hsum
      omega
    · cases hoffset
  · rintro ⟨⟨stop, hstop, hle⟩, hsum⟩
    have hadd := build.add_ok hsum
    have hvalue : (start + position.column).toNat = start.toNat + position.column.toNat := by
      rw [BitVec.toNat_add, Nat.mod_eq_of_lt hsum]
    refine ⟨start, stop, if start + position.column ≤ stop then start + position.column else stop,
      hstart, hstop, ?_, ?_⟩
    · simp only [LineIndex32.offset, hstart, hstop, hadd]
      rfl
    · rw [BitVec.le_def] at hle
      split
      · rename_i hfits
        rw [BitVec.le_def, hvalue] at hfits
        refine ⟨?_, ?_, ?_⟩
        · rw [BitVec.le_def, hvalue]
          exact Nat.le_add_right _ _
        · rw [BitVec.le_def, hvalue]
          exact hfits
        · rw [hvalue, min_eq_left hfits]
      · rename_i hpast
        rw [BitVec.le_def, hvalue] at hpast
        exact ⟨hle, BitVec.le_refl _, (min_eq_right (by omega)).symm⟩

end LineIndex32

def LineIndex.narrow (index : LineIndex) : LineIndex32 :=
  ⟨index.lineStarts.map (BitVec.ofNat 32), BitVec.ofNat 32 index.length⟩

theorem toNat_narrow {n : Nat} (h : n < 2 ^ 32) : (BitVec.ofNat 32 n).toNat = n := by
  rw [BitVec.toNat_ofNat, Nat.mod_eq_of_lt h]

theorem narrow_inj {m n : Nat} (hm : m < 2 ^ 32) (hn : n < 2 ^ 32) :
    BitVec.ofNat 32 m = BitVec.ofNat 32 n ↔ m = n := by
  constructor
  · intro h
    have hsame := congrArg BitVec.toNat h
    rwa [toNat_narrow hm, toNat_narrow hn] at hsame
  · exact fun h => h ▸ rfl

theorem sub_one_narrow (build : Build) {n : Nat} (hpos : 1 ≤ n) (h : n < 2 ^ 32) :
    build.sub (BitVec.ofNat 32 n) 1 = .ok (BitVec.ofNat 32 (n - 1)) := by
  have hone : (1 : U32) ≤ BitVec.ofNat 32 n := by
    rw [BitVec.le_def, toNat_narrow h]
    exact hpos
  rw [build.sub_ok hone]
  congr 1
  apply BitVec.eq_of_toNat_eq
  rw [BitVec.toNat_sub_of_le hone, toNat_narrow h, toNat_narrow (by omega)]
  rfl

theorem startsFrom_narrow (build : Build) {offset : Nat} {s : Str}
    (h : offset + utf8Len s < 2 ^ 32) : LineIndex32.startsFrom build offset s =
      .ok ((LineIndex.startsFrom offset s).map (BitVec.ofNat 32)) := by
  induction s generalizing offset with
  | nil => rfl
  | cons c s ih =>
    have hpos := c.utf8Size_pos
    rw [utf8Len_cons] at h
    rw [LineIndex32.startsFrom, LineIndex.startsFrom]
    split
    · have hone : (1 : U32).toNat = 1 := rfl
      have hsum : (BitVec.ofNat 32 offset).toNat + (1 : U32).toNat < 2 ^ 32 := by
        rw [toNat_narrow (by omega), hone]
        omega
      rw [build.add_ok hsum, ih (by omega), List.map_cons, BitVec.ofNat_add]
      rfl
    · exact ih (by omega)

theorem new_narrow (build : Build) {source : Str} (h : utf8Len source < 2 ^ 32) :
    LineIndex32.new build source = .ok (LineIndex.new source).narrow := by
  rw [LineIndex32.new, startsFrom_narrow build (by rwa [Nat.zero_add])]
  rfl

theorem lineStart_narrow (index : LineIndex) (line : U32) :
    index.narrow.lineStart line = (index.lineStart line.toNat).map (BitVec.ofNat 32) :=
  List.getElem?_map ..

theorem startsFrom_length (offset : Nat) (s : Str) :
    (LineIndex.startsFrom offset s).length ≤ utf8Len s := by
  induction s generalizing offset with
  | nil => exact Nat.zero_le _
  | cons c s ih =>
    have hpos := c.utf8Size_pos
    rw [LineIndex.startsFrom, utf8Len_cons]
    split
    · have := ih (offset + 1)
      rw [List.length_cons]
      omega
    · have := ih (offset + c.utf8Size)
      omega

variable {source : Str}

theorem lineStarts_le {start : Nat} (h : start ∈ (LineIndex.new source).lineStarts) :
    start ≤ utf8Len source := by
  rcases List.mem_cons.mp h with rfl | h
  · exact Nat.zero_le _
  · have := (startsFrom_le start h).2
    omega

theorem lineStarts_length (source : Str) :
    (LineIndex.new source).lineStarts.length ≤ utf8Len source + 1 :=
  Nat.succ_le_succ (startsFrom_length 0 source)

section

variable (hsize : utf8Len source + 1 < 2 ^ 32)
include hsize

theorem lineCount_narrow : (LineIndex.new source).narrow.lineCount.toNat =
    (LineIndex.new source).lineCount := by
  have hcount := lineStarts_length source
  rw [LineIndex32.lineCount, LineIndex.narrow, List.length_map, toNat_narrow (by omega)]
  rfl

theorem lineEnd_narrow (build : Build) (line : U32) :
    (LineIndex.new source).narrow.lineEnd build line =
      .ok (((LineIndex.new source).lineEnd line.toNat).map (BitVec.ofNat 32)) := by
  rw [LineIndex32.lineEnd, LineIndex.lineEnd]
  have hcount := lineCount_narrow hsize
  have hge : line ≥ (LineIndex.new source).narrow.lineCount ↔
      line.toNat ≥ (LineIndex.new source).lineCount := by
    rw [ge_iff_le, BitVec.le_def, hcount]
  by_cases hpast : line.toNat ≥ (LineIndex.new source).lineCount
  · rw [if_pos (hge.mpr hpast), if_pos hpast]
    rfl
  · rw [if_neg (mt hge.mp hpast), if_neg hpast]
    simp only [LineIndex.narrow, List.getElem?_map]
    cases hnext : (LineIndex.new source).lineStarts[line.toNat + 1]? with
    | none => rfl
    | some next =>
      have hmem := List.mem_of_getElem? hnext
      have hle := lineStarts_le hmem
      -- only the first line starts at zero
      have hpos : 0 < next := by
        have hrest : next ∈ LineIndex.startsFrom 0 source := List.mem_of_getElem? hnext
        exact (startsFrom_le next hrest).1
      simp only [Option.map_some, sub_one_narrow build hpos (by omega)]
      rfl

omit hsize in
/-- Numbers that fit are searched for as they are. -/
theorem search_narrow {starts : List Nat} (hstarts : ∀ start ∈ starts, start < 2 ^ 32)
    {offset : Nat} (hoffset : offset < 2 ^ 32) :
    (starts.map (BitVec.ofNat 32)).idxOf? (BitVec.ofNat 32 offset) = starts.idxOf? offset ∧
      ((starts.map (BitVec.ofNat 32)).takeWhile (· < BitVec.ofNat 32 offset)).length =
        (starts.takeWhile (· < offset)).length := by
  induction starts with
  | nil => exact ⟨rfl, rfl⟩
  | cons start starts ih =>
    have hstart : start < 2 ^ 32 := hstarts start List.mem_cons_self
    obtain ⟨hidx, htake⟩ := ih fun other hother => hstarts other (List.mem_cons_of_mem _ hother)
    have hlt : BitVec.ofNat 32 start < BitVec.ofNat 32 offset ↔ start < offset := by
      rw [BitVec.lt_def, toNat_narrow hstart, toNat_narrow hoffset]
    constructor
    · rw [List.map_cons, List.idxOf?_cons, List.idxOf?_cons, hidx]
      simp only [beq_iff_eq, narrow_inj hstart hoffset]
    · rw [List.map_cons, List.takeWhile_cons, List.takeWhile_cons]
      simp only [hlt]
      split
      · rw [List.length_cons, List.length_cons, htake]
      · rfl

theorem lineOf_narrow (build : Build) {offset : Nat} (hoffset : offset ≤ utf8Len source) :
    (LineIndex.new source).narrow.lineOf build (BitVec.ofNat 32 offset) =
      .ok (BitVec.ofNat 32 ((LineIndex.new source).lineOf offset)) := by
  have hstarts : ∀ start ∈ (LineIndex.new source).lineStarts, start < 2 ^ 32 := by
    intro start hstart
    have := lineStarts_le hstart
    omega
  have hsmall : offset < 2 ^ 32 := by omega
  obtain ⟨hidx, htake⟩ := search_narrow hstarts hsmall
  rw [LineIndex32.lineOf, LineIndex.lineOf]
  simp only [LineIndex.narrow, hidx, htake]
  cases hfound : (LineIndex.new source).lineStarts.idxOf? offset with
  | some line => rfl
  | none =>
    -- the first line starts at zero, so it has been passed
    have hpos : 0 < offset := by
      rcases Nat.eq_zero_or_pos offset with rfl | hpos
      · simp [LineIndex.new, List.idxOf?_cons] at hfound
      · exact hpos
    have hone : 1 ≤ ((LineIndex.new source).lineStarts.takeWhile (· < offset)).length := by
      rw [LineIndex.new, List.takeWhile_cons_of_pos (by simpa using hpos), List.length_cons]
      exact Nat.le_add_left 1 _
    have hcount : ((LineIndex.new source).lineStarts.takeWhile (· < offset)).length < 2 ^ 32 := by
      have := (List.takeWhile_prefix (· < offset)
        (l := (LineIndex.new source).lineStarts)).length_le
      have := lineStarts_length source
      omega
    generalize ((LineIndex.new source).lineStarts.takeWhile (· < offset)).length = count
      at hone hcount
    exact sub_one_narrow build hone hcount

/-- The index knows where the lines are. -/
theorem line_narrow (build : Build) {text : Str} {number base : Nat}
    (h : AtLine source text number base) :
    (LineIndex.new source).narrow.lineStart (BitVec.ofNat 32 number) =
        some (BitVec.ofNat 32 base) ∧
      (LineIndex.new source).narrow.lineEnd build (BitVec.ofNat 32 number) =
        .ok (some (BitVec.ofNat 32 (base + utf8Len text))) ∧ number < 2 ^ 32 ∧
      base + utf8Len text ≤ utf8Len source := by
  obtain ⟨hstart, hstop⟩ := line_span h
  have hlength := lineStarts_length source
  have hnumber : number < (LineIndex.new source).lineStarts.length :=
    (List.getElem?_eq_some_iff.mp hstart).1
  have hvalue := toNat_narrow (n := number) (by omega)
  have hbytes : base + utf8Len text ≤ utf8Len source := by
    obtain ⟨rest, hsource⟩ := h.split
    have hlength := congrArg utf8Len hsource
    rw [utf8Len_append, utf8Len_append, ← h.base] at hlength
    omega
  refine ⟨?_, ?_, by omega, hbytes⟩
  · rw [lineStart_narrow, hvalue, hstart, Option.map_some]
  · rw [lineEnd_narrow hsize, hvalue, hstop, Option.map_some]

/-- What has a start is a line of the source. -/
theorem exists_atLine {line start : U32}
    (h : (LineIndex.new source).narrow.lineStart line = some start) :
    ∃ text, AtLine source text line.toNat start.toNat := by
  rw [lineStart_narrow] at h
  obtain ⟨base, hbase, rfl⟩ := Option.map_eq_some_iff.mp h
  have hle := lineStarts_le (List.mem_of_getElem? hbase)
  rw [lineStart_eq] at hbase
  split at hbase
  · rename_i hlt
    refine ⟨_, List.getElem?_eq_getElem hlt, ?_⟩
    rw [toNat_narrow (by omega)]
    exact (Option.some.inj hbase).symm
  · cases hbase

theorem round_trip (build : Build) {offset : U32} (h : offset.toNat ≤ utf8Len source) :
    ∃ position, (LineIndex.new source).narrow.position build offset = .ok position ∧
      (LineIndex.new source).narrow.offset build position = .ok (some offset) := by
  obtain ⟨text, number, base, hline, hfrom, hto⟩ := exists_line h
  obtain ⟨hstart, hstop, hnumber, hbytes⟩ := line_narrow hsize build hline
  have hoffset : BitVec.ofNat 32 offset.toNat = offset := BitVec.ofNat_toNat 32 offset
  have hlineOf := lineOf_narrow hsize build h
  rw [hoffset, hline.lineOf_byte hfrom hto] at hlineOf
  have hbase := toNat_narrow (n := base) (by omega)
  have hle : BitVec.ofNat 32 base ≤ offset := by
    rw [BitVec.le_def, hbase]
    exact hfrom
  have hcolumn : (offset - BitVec.ofNat 32 base).toNat = offset.toNat - base := by
    rw [BitVec.toNat_sub_of_le hle, hbase]
  refine ⟨⟨BitVec.ofNat 32 number, offset - BitVec.ofNat 32 base⟩, ?_, ?_⟩
  · rw [LineIndex32.lineStart] at hstart
    simp only [LineIndex32.position, hlineOf, hstart, if_pos hle]
  · have hsum : (BitVec.ofNat 32 base).toNat + (offset - BitVec.ofNat 32 base).toNat < 2 ^ 32 := by
      rw [hbase, hcolumn]
      omega
    have hback : BitVec.ofNat 32 base + (offset - BitVec.ofNat 32 base) = offset := by
      apply BitVec.eq_of_toNat_eq
      rw [BitVec.toNat_add, hbase, hcolumn, Nat.mod_eq_of_lt (by omega)]
      omega
    have hfits : offset ≤ BitVec.ofNat 32 (base + utf8Len text) := by
      rw [BitVec.le_def, toNat_narrow (by omega)]
      exact hto
    simp only [LineIndex32.offset, hstart, hstop, build.add_ok hsum, hback]
    rw [Except.map, if_pos hfits]

end

/-- A position on a line that is there is clamped exactly if the line does not end before it
starts and adding the column does not overflow. Below 4 GiB lines are where they should be,
so only the second is left, and every byte comes back from its position. -/
theorem offset_clamps (build : Build) (source : Str) :
    (∀ index, LineIndex32.new build source = .ok index → ∀ line column start,
      index.lineStart line = some start → (index.Clamps build ⟨line, column⟩ ↔
        (∃ stop, index.lineEnd build line = .ok (some stop) ∧ start ≤ stop) ∧
          start.toNat + column.toNat < 2 ^ 32)) ∧
    (utf8Len source + 1 < 2 ^ 32 → ∃ index, LineIndex32.new build source = .ok index ∧
      (∀ line start, index.lineStart line = some start →
        (∃ text stop, AtLine source text line.toNat start.toNat ∧
          index.lineEnd build line = .ok (some stop) ∧
          stop.toNat = start.toNat + utf8Len text) ∧
        ∀ column, index.Clamps build ⟨line, column⟩ ↔
          start.toNat + column.toNat < 2 ^ 32) ∧
      ∀ offset : U32, offset.toNat ≤ utf8Len source → ∃ position,
        index.position build offset = .ok position ∧
          index.offset build position = .ok (some offset)) := by
  refine ⟨fun index _ line column start hstart => LineIndex32.clamps_iff build hstart,
    fun hsize => ⟨_, new_narrow build (by omega), fun line start hstart => ?_, fun offset hoffset =>
      round_trip hsize build hoffset⟩⟩
  obtain ⟨text, hline⟩ := exists_atLine hsize hstart
  obtain ⟨-, hstop, -, hbytes⟩ := line_narrow hsize build hline
  rw [BitVec.ofNat_toNat, BitVec.setWidth_eq] at hstop
  have hvalue := toNat_narrow (n := start.toNat + utf8Len text) (by omega)
  refine ⟨⟨text, _, hline, hstop, hvalue⟩, fun column => ?_⟩
  rw [LineIndex32.clamps_iff build hstart]
  refine and_iff_right ⟨_, hstop, ?_⟩
  rw [BitVec.le_def, hvalue]
  exact Nat.le_add_right _ _

/-- The last column of the second of two lines: a panic, or a byte of the first line. -/
theorem offset_clamps_overflow :
    let index : LineIndex32 := ⟨[0, 2], 3⟩
    (∀ build, LineIndex32.new build "a\nb".toList = .ok index) ∧
      index.offset .debug ⟨1, 0xFFFFFFFF⟩ = .error .overflow ∧
      index.offset .release ⟨1, 0xFFFFFFFF⟩ = .ok (some 1) ∧
      ∀ build, ¬index.Clamps build ⟨1, 0xFFFFFFFF⟩ := by
  refine ⟨fun build => ?_, by decide, by decide, fun build => ?_⟩
  · cases build <;> decide
  · have hstart : (⟨[0, 2], 3⟩ : LineIndex32).lineStart 1 = some 2 := rfl
    rintro ⟨start, stop, offset, hstart', -, hoffset, hlower, -⟩
    rw [hstart] at hstart'
    cases hstart'
    cases build with
    | debug => cases hoffset
    | release =>
      cases hoffset
      exact absurd hlower (by decide)

end MarieRs.Asm
