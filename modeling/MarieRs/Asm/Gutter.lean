import MarieRs.Asm.Layout

namespace MarieRs.Asm

/-- The first item at a line or after it. -/
def itemAtOrAfter (a : Assembly) (line : Nat) : Option Item :=
  a.program.items.find? fun item => line ≤ item.line

section

variable {source : Str} {a : Assembly} {sk : Sketch} {number line : Nat}

theorem place_cases {other : Nat} {address : MemoryAddress} (h : (other, address) ∈ a.places) :
    (∃ item ∈ a.program.items, item.line = other ∧ item.address = address) ∨
      ∃ e, a.program.end_ = some e ∧ e.line = other ∧
        address = BitVec.ofNat 12 (a.origin.toNat + a.program.items.length) := by
  rcases List.mem_append.mp h with hitem | hend
  · obtain ⟨item, hitem, heq⟩ := List.mem_map.mp hitem
    obtain ⟨hline, haddress⟩ := Prod.mk.inj heq
    exact .inl ⟨item, hitem, hline, haddress⟩
  · obtain ⟨e, he, heq⟩ := List.mem_map.mp hend
    obtain ⟨hline, haddress⟩ := Prod.mk.inj heq
    exact .inr ⟨e, Option.mem_toList.mp he, hline, haddress.symm⟩

theorem item_place {item : Item} (hitem : item ∈ a.program.items) :
    (item.line, item.address) ∈ a.places :=
  List.mem_append_left _ (List.mem_map.mpr ⟨item, hitem, rfl⟩)

theorem end_place {e : End} (he : a.program.end_ = some e) :
    (e.line, BitVec.ofNat 12 (a.origin.toNat + a.program.items.length)) ∈ a.places := by
  apply List.mem_append_right
  rw [he]
  exact List.mem_singleton_self _

/-- `END` comes after every item. -/
theorem end_last (h : Outlines source a sk) (hlaid : Sketch.Laid (shapes source) number sk)
    {e : End} (he : a.program.end_ = some e) {item : Item} (hitem : item ∈ a.program.items) :
    item.line < e.line := by
  apply (places_monotone h hlaid (item_place hitem) (end_place he)).mpr
  obtain ⟨k, hk⟩ := List.mem_iff_getElem?.mp hitem
  have haddress := item_address h hlaid hk
  have hlength := (List.getElem?_eq_some_iff.mp hk).1
  have hfits := end_fits h hlaid (by rw [he]; rfl)
  rw [haddress, BitVec.toNat_ofNat, Nat.mod_eq_of_lt hfits]
  omega

/-- Items stand in the order of their lines, so that the first one found is the nearest. -/
theorem itemAtOrAfter_least (h : Outlines source a sk)
    (hlaid : Sketch.Laid (shapes source) number sk) {item other : Item}
    (hitem : itemAtOrAfter a line = some item) (hother : other ∈ a.program.items)
    (hline : line ≤ other.line) : item.line ≤ other.line := by
  obtain ⟨-, front, back, hlist, hfront⟩ := List.find?_eq_some_iff_append.mp hitem
  have hordered := item_lines h hlaid
  rw [List.pairwise_map, hlist] at hordered
  rw [hlist] at hother
  rcases List.mem_append.mp hother with hbefore | hafter
  · have hnot := hfront _ hbefore
    exact absurd hline (by simpa using hnot)
  · rcases List.mem_cons.mp hafter with rfl | hafter
    · exact le_rfl
    · have hlater := (List.pairwise_append.mp hordered).2.1
      exact ((List.pairwise_cons.mp hlater).1 _ hafter).le

theorem gutter_item (h : Outlines source a sk) (hlaid : Sketch.Laid (shapes source) number sk)
    {item : Item} (hitem : itemAtOrAfter a line = some item) :
    a.sourceMap.addressAtOrAfter line = some item.address := by
  have hmem : item ∈ a.program.items := List.mem_of_find?_eq_some hitem
  have hline : line ≤ item.line := by
    have hfound := List.find?_some hitem
    exact of_decide_eq_true hfound
  apply SourceMap.addressAtOrAfter_first hline
  · exact (addressFor_iff h hlaid _ _).mpr (item_place hmem)
  · intro other hge hlt
    apply Option.eq_none_iff_forall_ne_some.mpr
    intro address haddress
    rcases place_cases ((addressFor_iff h hlaid _ _).mp haddress) with
      ⟨found, hfound, rfl, -⟩ | ⟨e, he, rfl, -⟩
    · exact absurd (itemAtOrAfter_least h hlaid hitem hfound hge) (not_le.mpr hlt)
    · exact absurd (end_last h hlaid he hmem) (not_lt.mpr hlt.le)

/-- The line of `END` is found as if it had a word. -/
theorem gutter_end (h : Outlines source a sk) (hlaid : Sketch.Laid (shapes source) number sk)
    (hnone : itemAtOrAfter a line = none) {e : End} (he : a.program.end_ = some e)
    (hline : line ≤ e.line) : a.sourceMap.addressAtOrAfter line =
      some (BitVec.ofNat 12 (a.origin.toNat + a.program.items.length)) := by
  apply SourceMap.addressAtOrAfter_first hline
  · exact (addressFor_iff h hlaid _ _).mpr (end_place he)
  · intro other hge hlt
    apply Option.eq_none_iff_forall_ne_some.mpr
    intro address haddress
    rcases place_cases ((addressFor_iff h hlaid _ _).mp haddress) with
      ⟨found, hfound, rfl, -⟩ | ⟨e', he', rfl, -⟩
    · exact List.find?_eq_none.mp hnone _ hfound (decide_eq_true hge)
    · rw [he, Option.some.injEq] at he'
      rw [he'] at hlt
      exact lt_irrefl _ hlt

theorem gutter_none (h : Outlines source a sk) (hlaid : Sketch.Laid (shapes source) number sk)
    (hnone : itemAtOrAfter a line = none)
    (hend : ∀ e, a.program.end_ = some e → e.line < line) :
    a.sourceMap.addressAtOrAfter line = none := by
  apply SourceMap.addressAtOrAfter_none
  intro other hge
  apply Option.eq_none_iff_forall_ne_some.mpr
  intro address haddress
  rcases place_cases ((addressFor_iff h hlaid _ _).mp haddress) with
    ⟨found, hfound, rfl, -⟩ | ⟨e, he, rfl, -⟩
  · exact List.find?_eq_none.mp hnone _ hfound (decide_eq_true hge)
  · exact absurd hge (not_le.mpr (hend e he))

end

/-- A breakpoint slides down to the next item, save on the lines between the last item and
`END`, where it lands on the address after the program. -/
theorem gutter_breakpoint (source : Str) (line : Nat) :
    (assemble source).sourceMap.addressAtOrAfter line =
        (itemAtOrAfter (assemble source) line).map Item.address ↔
      (∃ item ∈ (assemble source).program.items, line ≤ item.line) ∨
        ∀ e, (assemble source).program.end_ = some e → e.line < line := by
  have h := assemble_outlines source
  have hlaid := sketchOf_laid source
  cases hitem : itemAtOrAfter (assemble source) line with
  | some item =>
    have hfound := List.find?_some hitem
    exact iff_of_true (gutter_item h hlaid hitem)
      (.inl ⟨item, List.mem_of_find?_eq_some hitem, of_decide_eq_true hfound⟩)
  | none =>
    have hnot : ¬∃ item ∈ (assemble source).program.items, line ≤ item.line := by
      rintro ⟨item, hmem, hline⟩
      exact List.find?_eq_none.mp hitem _ hmem (decide_eq_true hline)
    rw [or_iff_right hnot]
    constructor
    · intro hgutter e he
      by_contra hline
      rw [gutter_end h hlaid hitem he (not_lt.mp hline)] at hgutter
      cases hgutter
    · intro hend
      exact gutter_none h hlaid hitem hend

/-- `END` emits no word, but the line above it finds one. -/
theorem gutter_breakpoint_end : ¬∀ source line,
    (assemble source).sourceMap.addressAtOrAfter line =
      (itemAtOrAfter (assemble source) line).map Item.address := by
  intro hall
  have hend := hall "Halt\nEND".toList 1
  revert hend
  decide +kernel

end MarieRs.Asm
