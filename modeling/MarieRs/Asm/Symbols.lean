import MarieRs.Asm.Span

namespace MarieRs.Asm

inductive Role where
  | definition | reference
  deriving DecidableEq, Repr

structure Symbol where
  name : Str
  address : MemoryAddress
  definition : Span
  line : Nat
  references : List Span
  deriving DecidableEq

def Symbol.isUnused (symbol : Symbol) : Bool := symbol.references.isEmpty

/-- Every label of a source, ordered by name. Labels are case-sensitive. -/
structure SymbolTable where
  symbols : Std.TreeMap Str Symbol := ∅

namespace SymbolTable

def get (table : SymbolTable) (name : Str) : Option Symbol := table.symbols[name]?

def contains (table : SymbolTable) (name : Str) : Bool := table.symbols.contains name

def addressOf (table : SymbolTable) (name : Str) : Option MemoryAddress :=
  (table.get name).map Symbol.address

/-- Records a definition; the error is the symbol that has the name already. -/
def define (table : SymbolTable) (name : Str) (address : MemoryAddress) (definition : Span)
    (line : Nat) : Except Symbol SymbolTable :=
  match table.symbols[name]? with
  | some existing => .error existing
  | none =>
    .ok ⟨table.symbols.insert name { name, address, definition, line, references := [] }⟩

/-- Records a use, unless the name is not defined. -/
def reference (table : SymbolTable) (name : Str) (span : Span) :
    Option MemoryAddress × SymbolTable :=
  match table.symbols[name]? with
  | none => (none, table)
  | some symbol =>
    (some symbol.address,
      ⟨table.symbols.insert name { symbol with references := symbol.references ++ [span] }⟩)

/-- The labels in the order of their names. -/
def iter (table : SymbolTable) : List Symbol := table.symbols.toList.map Prod.snd

def unused (table : SymbolTable) : List Symbol := table.iter.filter Symbol.isUnused

/-- The label at an offset, and in which role, in the order of the names. -/
def findAt (table : SymbolTable) (offset : Nat) : Option (Symbol × Role) :=
  table.symbols.toList.findSome? fun p =>
    if p.2.definition.touches offset then some (p.2, .definition)
    else if p.2.references.any (fun span => span.touches offset) then some (p.2, .reference)
    else none

/-- What a rename of the label at an offset has to touch: the definition first. -/
def renameSpans (table : SymbolTable) (offset : Nat) : Option (Symbol × List Span) :=
  (table.findAt offset).map fun found => (found.1, found.1.definition :: found.1.references)

theorem get_empty (name : Str) : ({} : SymbolTable).get name = none := by
  simp [get]

theorem get_define {table table' : SymbolTable} {name : Str} {address : MemoryAddress}
    {definition : Span} {line : Nat} (h : table.define name address definition line = .ok table')
    (other : Str) :
    table'.get other = if other = name then some ⟨name, address, definition, line, []⟩
      else table.get other := by
  unfold define at h
  split at h
  · cases h
  · cases h
    simp only [get, Std.TreeMap.getElem?_insert, Std.compare_eq_iff_eq]
    by_cases ho : other = name
    · rw [if_pos ho.symm, if_pos ho]
    · rw [if_neg (Ne.symm ho), if_neg ho]

theorem define_ok {table : SymbolTable} {name : Str} {address : MemoryAddress}
    {definition : Span} {line : Nat} :
    (∃ table', table.define name address definition line = .ok table') ↔
      table.get name = none := by
  unfold define get
  split <;> simp_all

theorem get_reference (table : SymbolTable) (name : Str) (span : Span) (other : Str) :
    (table.reference name span).2.get other = if other = name then
        (table.get name).map (fun s => { s with references := s.references ++ [span] })
      else table.get other := by
  unfold reference
  cases hn : table.symbols[name]? with
  | none =>
    by_cases ho : other = name
    · subst ho
      simp [get, hn]
    · simp [ho]
  | some symbol =>
    simp only [get, Std.TreeMap.getElem?_insert, Std.compare_eq_iff_eq, hn]
    by_cases ho : other = name
    · rw [if_pos ho.symm, if_pos ho]
      rfl
    · rw [if_neg (Ne.symm ho), if_neg ho]

theorem reference_address (table : SymbolTable) (name : Str) (span : Span) :
    (table.reference name span).1 = table.addressOf name := by
  unfold reference addressOf get
  cases table.symbols[name]? <;> rfl

end SymbolTable

/-- A two-way index between addresses and source lines. -/
structure SourceMap where
  byAddress : Std.TreeMap Nat Nat := ∅
  byLine : Std.TreeMap Nat Nat := ∅

namespace SourceMap

def insert (map : SourceMap) (address : MemoryAddress) (line : Nat) : SourceMap where
  byAddress := map.byAddress.insert address.toNat line
  byLine := map.byLine.insert line address.toNat

def lineFor (map : SourceMap) (address : MemoryAddress) : Option Nat :=
  map.byAddress[address.toNat]?

/-- `MemoryAddress::new` on a stored address, which is always in range. -/
def addressFor (map : SourceMap) (line : Nat) : Option MemoryAddress :=
  (map.byLine[line]?).map (BitVec.ofNat 12)

/-- The first line of `range(line..)` says where to put a breakpoint. -/
def addressAtOrAfter (map : SourceMap) (line : Nat) : Option MemoryAddress :=
  (map.byLine.toList.find? fun p => line ≤ p.1).map fun p => BitVec.ofNat 12 p.2

theorem lineFor_insert (map : SourceMap) (address : MemoryAddress) (line : Nat)
    (other : MemoryAddress) :
    (map.insert address line).lineFor other =
      if other = address then some line else map.lineFor other := by
  simp only [lineFor, insert, Std.TreeMap.getElem?_insert, Std.compare_eq_iff_eq]
  by_cases ho : other = address
  · rw [if_pos (by rw [ho]), if_pos ho]
  · rw [if_neg (fun h => ho (BitVec.eq_of_toNat_eq h.symm)), if_neg ho]

theorem addressFor_insert (map : SourceMap) (address : MemoryAddress) (line other : Nat) :
    (map.insert address line).addressFor other =
      if other = line then some address else map.addressFor other := by
  simp only [addressFor, insert, Std.TreeMap.getElem?_insert, Std.compare_eq_iff_eq]
  by_cases ho : other = line
  · rw [if_pos ho.symm, if_pos ho]
    simp
  · rw [if_neg (Ne.symm ho), if_neg ho]

theorem mem_byLine {map : SourceMap} {p : Nat × Nat} (h : p ∈ map.byLine.toList) :
    map.addressFor p.1 = some (BitVec.ofNat 12 p.2) := by
  rw [addressFor, Std.TreeMap.mem_toList_iff_getElem?_eq_some.mp h, Option.map_some]

theorem addressAtOrAfter_first {map : SourceMap} {line first : Nat} {address : MemoryAddress}
    (hfirst : line ≤ first) (haddress : map.addressFor first = some address)
    (hnone : ∀ other, line ≤ other → other < first → map.addressFor other = none) :
    map.addressAtOrAfter line = some address := by
  obtain ⟨value, hvalue, hsame⟩ := Option.map_eq_some_iff.mp haddress
  have hmem : (first, value) ∈ map.byLine.toList :=
    Std.TreeMap.mem_toList_iff_getElem?_eq_some.mpr hvalue
  cases hfind : map.byLine.toList.find? (fun p => line ≤ p.1) with
  | none =>
    have hnot := List.find?_eq_none.mp hfind _ hmem
    exact absurd hfirst (by simpa using hnot)
  | some p =>
    obtain ⟨hp, front, back, hlist, hfront⟩ := List.find?_eq_some_iff_append.mp hfind
    have hp : line ≤ p.1 := of_decide_eq_true hp
    have hplace : map.addressFor p.1 = some (BitVec.ofNat 12 p.2) := by
      apply mem_byLine
      rw [hlist]
      simp
    have hle : first ≤ p.1 := by
      by_contra hlt
      rw [hnone p.1 hp (not_le.mp hlt)] at hplace
      cases hplace
    have hge : p.1 ≤ first := by
      have hordered := Std.TreeMap.ordered_keys_toList (t := map.byLine)
      rw [hlist] at hordered hmem
      rcases List.mem_append.mp hmem with hbefore | hafter
      · have hnot := hfront _ hbefore
        exact absurd hfirst (by simpa using hnot)
      · rcases List.mem_cons.mp hafter with rfl | hafter
        · exact le_rfl
        · have hlater := (List.pairwise_append.mp hordered).2.1
          exact (Nat.compare_eq_lt.mp ((List.pairwise_cons.mp hlater).1 _ hafter)).le
    rw [addressAtOrAfter, hfind, Option.map_some, ← hplace, ← haddress, le_antisymm hge hle]

theorem addressAtOrAfter_none {map : SourceMap} {line : Nat}
    (hnone : ∀ other, line ≤ other → map.addressFor other = none) :
    map.addressAtOrAfter line = none := by
  rw [addressAtOrAfter, Option.map_eq_none_iff, List.find?_eq_none]
  intro p hp hline
  have hplace := mem_byLine hp
  rw [hnone p.1 (of_decide_eq_true hline)] at hplace
  cases hplace

end SourceMap

end MarieRs.Asm
