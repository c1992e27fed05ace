import MarieRs.Core.Word

namespace MarieRs

/-- The length in bytes: offsets into text are those of its UTF-8 encoding. -/
def utf8Len (s : Str) : Nat := (s.map Char.utf8Size).sum

@[simp] theorem utf8Len_nil : utf8Len [] = 0 := rfl

@[simp] theorem utf8Len_cons (c : Char) (s : Str) :
    utf8Len (c :: s) = c.utf8Size + utf8Len s := by
  simp [utf8Len]

@[simp] theorem utf8Len_append (s t : Str) : utf8Len (s ++ t) = utf8Len s + utf8Len t := by
  simp [utf8Len]

theorem utf8Len_eq_zero {s : Str} : utf8Len s = 0 ↔ s = [] := by
  cases s with
  | nil => simp
  | cons c s => simp [c.utf8Size_pos.ne']

/-- Cuts a string at a byte offset, if that is a character boundary. -/
def splitAtByte : Str → Nat → Option (Str × Str)
  | s, 0 => some ([], s)
  | [], _ + 1 => none
  | c :: s, n + 1 =>
    if c.utf8Size ≤ n + 1 then
      (splitAtByte s (n + 1 - c.utf8Size)).map (fun p => (c :: p.1, p.2))
    else none

/-- `str::get` with a range of byte offsets. -/
def sliceBytes (s : Str) (start stop : Nat) : Option Str :=
  if start ≤ stop then
    (splitAtByte s start).bind (fun p => (splitAtByte p.2 (stop - start)).map Prod.fst)
  else none

theorem splitAtByte_eq_some {s : Str} {n : Nat} {p : Str × Str} :
    splitAtByte s n = some p ↔ s = p.1 ++ p.2 ∧ utf8Len p.1 = n := by
  induction s generalizing n p with
  | nil =>
    cases n with
    | zero =>
      obtain ⟨a, b⟩ := p
      simp only [splitAtByte, Option.some.injEq, Prod.mk.injEq]
      constructor
      · rintro ⟨rfl, rfl⟩
        exact ⟨rfl, rfl⟩
      · rintro ⟨hs, -⟩
        obtain ⟨rfl, rfl⟩ := List.append_eq_nil_iff.mp hs.symm
        exact ⟨rfl, rfl⟩
    | succ n =>
      simp only [splitAtByte, reduceCtorEq, false_iff, not_and]
      intro hs
      obtain ⟨h1, -⟩ := List.append_eq_nil_iff.mp hs.symm
      rw [h1]
      exact nofun
  | cons c s ih =>
    obtain ⟨a, b⟩ := p
    have hc := c.utf8Size_pos
    cases n with
    | zero =>
      simp only [splitAtByte, Option.some.injEq, Prod.mk.injEq, utf8Len_eq_zero]
      constructor
      · rintro ⟨rfl, rfl⟩
        exact ⟨rfl, rfl⟩
      · rintro ⟨hs, rfl⟩
        exact ⟨rfl, hs⟩
    | succ n =>
      rw [splitAtByte]
      constructor
      · intro h
        split at h
        · rename_i hle
          obtain ⟨⟨a', b'⟩, hsplit, heq⟩ := Option.map_eq_some_iff.mp h
          cases heq
          obtain ⟨rfl, hlen⟩ := ih.mp hsplit
          refine ⟨rfl, ?_⟩
          simp only [utf8Len_cons]
          simp only at hlen
          omega
        · cases h
      · rintro ⟨hs, hlen⟩
        cases a with
        | nil => simp at hlen
        | cons d a =>
          rw [List.cons_append] at hs
          cases hs
          simp only [utf8Len_cons] at hlen
          have hsplit : splitAtByte (a ++ b) (n + 1 - c.utf8Size) = some (a, b) :=
            ih.mpr ⟨rfl, by simp only; omega⟩
          rw [if_pos (by omega), hsplit]
          rfl

theorem splitAtByte_append (s t : Str) : splitAtByte (s ++ t) (utf8Len s) = some (s, t) :=
  splitAtByte_eq_some.mpr ⟨rfl, rfl⟩

theorem sliceBytes_append (s t u : Str) :
    sliceBytes (s ++ t ++ u) (utf8Len s) (utf8Len s + utf8Len t) = some t := by
  rw [sliceBytes, if_pos (Nat.le_add_right _ _), List.append_assoc, splitAtByte_append]
  simp only [Option.bind_some, Nat.add_sub_cancel_left, splitAtByte_append, Option.map_some]

/-- Byte offsets of characters, as `char_indices` counts them. -/
def charIndicesFrom : Nat → Str → List (Nat × Char)
  | _, [] => []
  | offset, c :: s => (offset, c) :: charIndicesFrom (offset + c.utf8Size) s

def charIndices (s : Str) : List (Nat × Char) := charIndicesFrom 0 s

theorem charIndicesFrom_get (offset : Nat) (s : Str) (i : Nat) :
    (charIndicesFrom offset s)[i]? = (s[i]?).map (fun c => (offset + utf8Len (s.take i), c)) := by
  induction s generalizing offset i with
  | nil => rfl
  | cons c s ih =>
    cases i with
    | zero => simp [charIndicesFrom]
    | succ i => simp [charIndicesFrom, ih, Nat.add_assoc]

theorem charIndices_get (s : Str) (i : Nat) :
    (charIndices s)[i]? = (s[i]?).map (fun c => (utf8Len (s.take i), c)) := by
  rw [charIndices, charIndicesFrom_get, Nat.zero_add]

@[simp] theorem charIndices_length (s : Str) : (charIndices s).length = s.length := by
  have h : ∀ offset, (charIndicesFrom offset s).length = s.length := by
    induction s with
    | nil => intro offset; rfl
    | cons c s ih => intro offset; simp [charIndicesFrom, ih]
  exact h 0

/-- The Unicode property `White_Space`, which `char::is_whitespace` tests. -/
def isWhitespace (c : Char) : Bool :=
  let n := c.toNat
  (0x09 ≤ n && n ≤ 0x0D) || n == 0x20 || n == 0x85 || n == 0xA0 || n == 0x1680 ||
    (0x2000 ≤ n && n ≤ 0x200A) || n == 0x2028 || n == 0x2029 || n == 0x202F ||
    n == 0x205F || n == 0x3000

/-- The characters with that property: what holds of all of them can be checked. -/
def WHITESPACE : List Char :=
  [0x09, 0x0A, 0x0B, 0x0C, 0x0D, 0x20, 0x85, 0xA0, 0x1680, 0x2000, 0x2001, 0x2002, 0x2003,
    0x2004, 0x2005, 0x2006, 0x2007, 0x2008, 0x2009, 0x200A, 0x2028, 0x2029, 0x202F, 0x205F,
    0x3000].map Char.ofNat

theorem mem_WHITESPACE {c : Char} (h : isWhitespace c = true) : c ∈ WHITESPACE := by
  have hc : Char.ofNat c.toNat = c := Char.ofNat_toNat c
  simp only [isWhitespace, Bool.or_eq_true, Bool.and_eq_true, decide_eq_true_eq, beq_iff_eq] at h
  rw [← hc]
  refine List.mem_map_of_mem ?_
  simp only [List.mem_cons, List.not_mem_nil, or_false]
  omega

theorem whitespace_all (p : Char → Bool) (hp : WHITESPACE.all p = true) {c : Char}
    (h : isWhitespace c = true) : p c = true :=
  List.all_eq_true.mp hp c (mem_WHITESPACE h)

def isAsciiDigit (c : Char) : Bool := '0' ≤ c && c ≤ '9'

def isAsciiHexdigit (c : Char) : Bool :=
  isAsciiDigit c || ('a' ≤ c && c ≤ 'f') || ('A' ≤ c && c ≤ 'F')

end MarieRs
