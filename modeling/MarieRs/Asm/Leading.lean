import MarieRs.Asm.Overlooked
import MarieRs.Asm.Relabel

namespace MarieRs.Asm

variable {source text run : Str} {number : Nat}

/-- What a line without a label reports and places. -/
inductive Appends (sk : Sketch) : Shape → List Code → List Placed → Prop where
  | blank : Appends sk .blank [] []
  | malformed : Appends sk .malformed [.MALFORMED_LINE] []
  | origin (digits : Str) : Appends sk (.origin digits) [] []
  | late (digits : Str) : Appends sk (.origin digits) [.UNEXPECTED_ORIGIN] []
  | full (s : Statement)
    (h : MemoryAddress.tryNew (sk.originAddress.toNat + sk.items.length) = none) :
    Appends sk (.statement s) [.PROGRAM_TOO_LARGE] []
  | ends (s : Statement) (h : isEnd s = true) : Appends sk (.statement s) [] []
  | places (p : Placed) {s : Statement} (hs : p.statement = s) (h : isEnd s = false) :
    Appends sk (.statement s) [] [p]

theorem stepForm_appends (sk : Sketch) (line : Nat) {shape : Shape}
    (hplain : ∀ s, shape = .statement s → s.label = none) :
    ∃ codes placed, Appends sk shape codes placed ∧
      (sk.stepForm line shape).codes = sk.codes ++ codes ∧
      (sk.stepForm line shape).items = sk.items ++ placed ∧
      (sk.stepForm line shape).addressOf = sk.addressOf := by
  cases shape with
  | blank => exact ⟨_, _, .blank, (List.append_nil _).symm, (List.append_nil _).symm, rfl⟩
  | malformed => exact ⟨_, _, .malformed, rfl, (List.append_nil _).symm, rfl⟩
  | origin digits =>
    rw [Sketch.stepForm]
    split
    · exact ⟨_, _, .late digits, rfl, (List.append_nil _).symm, rfl⟩
    · exact ⟨_, _, .origin digits, (List.append_nil _).symm, (List.append_nil _).symm, rfl⟩
  | statement s =>
    rw [Sketch.stepForm, Sketch.stepStatement, hplain s rfl]
    split
    · rename_i hfull
      exact ⟨_, _, .full s hfull, rfl, (List.append_nil _).symm, rfl⟩
    · rename_i address _
      have hlabels : (sk.accept ⟨line, address, s⟩).addressOf = sk.addressOf := by
        funext name
        rw [Sketch.addressOf, Sketch.accept_labels, hplain s rfl, if_neg (by simp)]
        rfl
      simp only [Option.bind_none, Sketch.accept_codes, Sketch.accept_items, hlabels, and_true]
      cases hend : isEnd s with
      | true => exact ⟨_, _, .ends s hend, (List.append_nil _).symm, (List.append_nil _).symm⟩
      | false => exact ⟨_, _, .places ⟨line, address, s⟩ rfl hend, (List.append_nil _).symm, rfl⟩

/-- On the last line, a mark that gets into an operator is noticed, or the line fails anyhow. -/
theorem overlooked_plain {sk : Sketch} {line : Nat} {shape shape' : Shape}
    (hform : shape ≠ .malformed) (hplain : ∀ s, shape = .statement s → s.label = none)
    (hmarked : shape' = .malformed ∨
      ∃ rest operand, shape' = .statement ⟨none, BYTE_ORDER_MARK :: rest, operand⟩)
    (h : (sk.stepForm line shape).Matches (sk.stepForm line shape')) :
    ∃ s s', shape = .statement s ∧ shape' = .statement s' ∧ Overlooked sk s s' := by
  have hplain' : ∀ s, shape' = .statement s → s.label = none := by
    rintro s rfl
    rcases hmarked with hbad | ⟨rest, operand, hmarked⟩
    · cases hbad
    · cases hmarked
      rfl
  obtain ⟨codes, placed, happends, hcodes, hitems, hlabels⟩ := stepForm_appends sk line hplain
  obtain ⟨codes', placed', happends', hcodes', hitems', hlabels'⟩ :=
    stepForm_appends sk line hplain'
  have hlength : placed.length = placed'.length := by
    have hwords := congrArg List.length h.words
    simp only [Sketch.words, List.length_map, hitems, hitems', List.length_append] at hwords
    omega
  have hreports := h.codes
  simp only [Sketch.failures, hcodes, hcodes', hitems, hitems', hlabels, hlabels',
    List.append_assoc, List.flatMap_append, List.append_cancel_left_eq] at hreports
  have hsame : placed = [] → placed' = [] → codes = codes' := by
    rintro rfl rfl
    exact List.append_cancel_right hreports
  rcases hmarked with rfl | ⟨rest, operand, rfl⟩
  · -- only a line that is malformed without the mark reports the same
    cases happends'
    have hcode := hsame (List.length_eq_zero_iff.mp hlength) rfl
    cases happends with
    | malformed => exact absurd rfl hform
    | blank | origin | late | full | ends | places => exact absurd hcode (by decide)
  · have hmark := noOperator_mark none rest operand
    cases happends' with
    | ends s hend =>
      rw [noOperator_isEnd hmark] at hend
      cases hend
    | full s hfull =>
      have hcode := hsame (List.length_eq_zero_iff.mp hlength) rfl
      cases happends with
      | malformed => exact absurd rfl hform
      | full s _ => exact ⟨s, _, rfl, rfl, .inl hfull⟩
      | blank | origin | late | ends | places => exact absurd hcode (by decide)
    | places p' hp' _ =>
      cases happends with
      | malformed => exact absurd rfl hform
      | blank | origin | late | full | ends => cases hlength
      | @places p s hp hend =>
        refine ⟨s, _, rfl, rfl, .inr (.inr ⟨hplain s rfl, ?_⟩)⟩
        simp only [List.flatMap_cons, List.flatMap_nil, List.append_nil, List.nil_append, hp, hp',
          wordOf_noOperator _ hmark, List.append_cancel_left_eq] at hreports
        exact noOperator_of_failure hend hreports

/-- A statement defines no other label than its own. -/
theorem stepStatement_addressOf (sk : Sketch) (line : Nat) {s : Statement} {name : Str}
    (hother : s.label ≠ some name) :
    (sk.stepStatement line s).addressOf name = sk.addressOf name := by
  rw [Sketch.stepStatement]
  split
  · rfl
  · split
    · rfl
    · rw [Sketch.accept_addressOf, if_neg hother]

section Room

variable {sk : Sketch} {address : MemoryAddress} {s : Statement}
  (hroom : MemoryAddress.tryNew (sk.originAddress.toNat + sk.items.length) = some address)

include hroom

theorem stepStatement_rejected {code : Code}
    (hcode : s.label.bind (rejection sk.labels) = some code) (line : Nat) :
    sk.stepStatement line s = sk.report code := by
  rw [Sketch.stepStatement, hroom]
  simp only [hcode]

/-- A label that is accepted was not there before. -/
theorem stepStatement_accepted {name : Str} (hname : s.label = some name)
    (hcode : s.label.bind (rejection sk.labels) = none) (line : Nat) :
    (sk.stepStatement line s).addressOf name = some address ∧ sk.addressOf name = none := by
  have hstep : sk.stepStatement line s = sk.accept ⟨line, address, s⟩ := by
    rw [Sketch.stepStatement, hroom]
    simp only [hcode]
  have hfresh : sk.labels name = none := by
    rw [hname, Option.bind_some] at hcode
    exact Sketch.rejection_fresh hcode
  rw [hstep, Sketch.accept_addressOf, if_pos hname, Sketch.addressOf, hfresh]
  exact ⟨rfl, rfl⟩

end Room

/-- On the last line, a mark that gets into a label is noticed, or the line fails anyhow. -/
theorem overlooked_label {sk : Sketch} {line : Nat} {s s' : Statement} {name name' : Str}
    (hname : s.label = some name) (hname' : s'.label = some name') (hne : name ≠ name')
    (h : (sk.stepStatement line s).Matches (sk.stepStatement line s')) : Overlooked sk s s' := by
  cases hroom : MemoryAddress.tryNew (sk.originAddress.toNat + sk.items.length) with
  | none => exact .inl hroom
  | some address =>
    have hother : s.label ≠ some name' := by simp [hname, hne]
    have hother' : s'.label ≠ some name := by simp [hname', Ne.symm hne]
    have hkept := stepStatement_addressOf sk line hother
    have hkept' := stepStatement_addressOf sk line hother'
    cases hcode : s.label.bind (rejection sk.labels) with
    | none =>
      obtain ⟨hdefined, hfresh⟩ := stepStatement_accepted hroom hname hcode line
      rw [← h.labels, hdefined, hfresh] at hkept'
      cases hkept'
    | some code =>
      cases hcode' : s'.label.bind (rejection sk.labels) with
      | none =>
        obtain ⟨hdefined, hfresh⟩ := stepStatement_accepted hroom hname' hcode' line
        rw [h.labels, hdefined, hfresh] at hkept
        cases hkept
      | some code' =>
        have hreports := h.codes
        rw [stepStatement_rejected hroom hcode, stepStatement_rejected hroom hcode'] at hreports
        simp only [Sketch.report, List.append_assoc, List.append_cancel_left_eq] at hreports
        have heq : code = code' := (List.cons.inj hreports).1
        exact .inr (.inl ⟨code, hcode, heq ▸ hcode'⟩)

/-- The marked line, beside the line without the mark. -/
theorem shapeOf_marked (hform : shapeOf text ≠ .malformed) (hrun : Leading run)
    (hmark : BYTE_ORDER_MARK ∈ run) :
    ((∀ s, shapeOf text = .statement s → s.label = none) ∧
      (shapeOf (run ++ text) = .malformed ∨ ∃ rest operand,
        shapeOf (run ++ text) = .statement ⟨none, BYTE_ORDER_MARK :: rest, operand⟩)) ∨
      ∃ s s' name name', shapeOf text = .statement s ∧ shapeOf (run ++ text) = .statement s' ∧
        s.label = some name ∧ s'.label = some name' ∧ name ≠ name' := by
  obtain ⟨before, after, rfl, hbefore, hafter⟩ := hrun.split hmark
  rcases shapeOf_cases hform with ⟨hcomma, hplain⟩ | ⟨p, name, hsound, rfl, hname, hp⟩
  · exact .inl ⟨hplain, shapeOf_mark_plain hbefore hafter hcomma⟩
  · refine .inr ⟨_, _, name, _, hp, shapeOf_mark_label hbefore hafter hsound hname, hname, rfl, ?_⟩
    intro heq
    have hlength := congrArg List.length heq
    simp only [List.length_append, List.length_cons] at hlength
    omega

theorem Harmless.of_unchanged (hline : (source.splitOn '\n')[number]? = some text)
    (hlast : number + 1 = (source.splitOn '\n').length) (hform : shapeOf text ≠ .malformed)
    (hrun : Leading run)
    (h : Unchanged (assemble source) (assemble (insertLeading run number source))) :
    Harmless source number run text := by
  have hnil : (shapes source).drop (number + 1) = [] := by
    rw [hlast, List.drop_eq_nil_iff, shapes, List.length_map]
  rw [unchanged_iff, sketchOf_upTo hline, sketchOf_insertLeading hline hrun.newline, hnil] at h
  simp only [Sketch.run] at h
  by_cases hmark : BYTE_ORDER_MARK ∈ run
  · right
    cases hstopped : (sketchUpTo source number).stopped with
    | true => exact .inl rfl
    | false =>
      rw [Sketch.step_running hstopped, Sketch.step_running hstopped] at h
      right
      rcases shapeOf_marked hform hrun hmark with ⟨hplain, hmarked⟩ |
        ⟨s, s', name, name', hs, hs', hname, hname', hne⟩
      · exact overlooked_plain hform hplain hmarked h
      · rw [hs, hs'] at h
        exact ⟨s, s', hs, hs', overlooked_label hname hname' hne h⟩
  · exact .inl hmark

/-- What a sketch holds, it keeps. -/
theorem step_holds (sk : Sketch) (line : Nat) (shape : Shape) :
    (∀ p ∈ sk.items, p ∈ (sk.step line shape).items) ∧ ∀ name place,
      sk.labels name = some place → (sk.step line shape).labels name = some place := by
  have hmoves := sk.step_moves line shape
  generalize sk.step line shape = sk' at hmoves ⊢
  cases hmoves with
  | stays => exact ⟨fun _ hp => hp, fun _ _ h => h⟩
  | origin => exact ⟨fun _ hp => hp, fun _ _ h => h⟩
  | accepts s address _ _ _ hlabel =>
    constructor
    · intro p hp
      rw [Sketch.accept_items]
      split
      · exact hp
      · exact List.mem_append_left _ hp
    · intro name place h
      rw [Sketch.accept_labels, if_neg]
      · exact h
      · intro hname
        rw [Sketch.rejection_fresh (hlabel name hname)] at h
        cases h

theorem run_holds (sk : Sketch) (line : Nat) (rest : List Shape) :
    (∀ p ∈ sk.items, p ∈ (Sketch.run line rest sk).items) ∧ ∀ name place,
      sk.labels name = some place → (Sketch.run line rest sk).labels name = some place := by
  apply Sketch.run_invariant (fun sk' => (∀ p ∈ sk.items, p ∈ sk'.items) ∧
    ∀ name place, sk.labels name = some place → sk'.labels name = some place)
  · rintro sk' ⟨hitems, hlabels⟩ line shape
    obtain ⟨hitems', hlabels'⟩ := step_holds sk' line shape
    exact ⟨fun p hp => hitems' p (hitems p hp),
      fun name place h => hlabels' name place (hlabels name place h)⟩
  · exact ⟨fun _ hp => hp, fun _ _ h => h⟩

/-- An accepted statement stays on record. -/
theorem run_accept {sk : Sketch} {p : Placed} (line : Nat) (rest : List Shape) :
    p ∈ (Sketch.run line rest (sk.accept p)).statements := by
  cases hend : isEnd p.statement with
  | true =>
    have hstopped : (sk.accept p).stopped = true := by rw [Sketch.accept_stopped, hend]
    rw [Sketch.run_stopped hstopped, Sketch.statements, Sketch.accept_ended, hend]
    simp
  | false =>
    have hitem : p ∈ (sk.accept p).items := by
      rw [Sketch.accept_items, hend]
      simp
    exact List.mem_append_left _ ((run_holds _ line rest).1 p hitem)

/-- The codes for a statement that is not accepted. -/
def refusals : List Code := .PROGRAM_TOO_LARGE :: labelCodes

/-- Where none is refused, a statement that the first pass comes to is accepted. -/
theorem step_accepts {sk : Sketch} {line : Nat} {s : Statement} {rest : List Shape}
    (hrunning : sk.stopped = false)
    (h : ∀ code ∈ (Sketch.run (line + 1) rest (sk.step line (.statement s))).codes,
      code ∉ refusals) :
    ∃ address, sk.step line (.statement s) = sk.accept ⟨line, address, s⟩ ∧
      MemoryAddress.tryNew (sk.originAddress.toNat + sk.items.length) = some address := by
  have hnone : ∀ code ∈ (sk.step line (.statement s)).codes, code ∉ refusals := by
    intro code hcode
    obtain ⟨new, hnew, -⟩ := (sk.step line (.statement s)).run_reported (line + 1) rest
    rw [hnew] at h
    exact h code (List.mem_append_left new hcode)
  rw [Sketch.step_running hrunning, Sketch.stepForm, Sketch.stepStatement] at hnone ⊢
  cases hroom : MemoryAddress.tryNew (sk.originAddress.toNat + sk.items.length) with
  | none =>
    rw [hroom] at hnone
    exact absurd (by decide) (hnone .PROGRAM_TOO_LARGE (by simp [Sketch.report]))
  | some address =>
    cases hcode : s.label.bind (rejection sk.labels) with
    | none => exact ⟨address, by simp only, rfl⟩
    | some code =>
      simp only [hroom, hcode] at hnone
      obtain ⟨name, -, hrejected⟩ := Option.bind_eq_some_iff.mp hcode
      have hrefused : code ∈ refusals := List.mem_cons_of_mem _ (rejection_code hrejected)
      exact absurd hrefused (hnone code (by simp [Sketch.report]))

/-- The statements that are placed where none is refused. -/
def itemsOf : List Shape → List Statement
  | [] => []
  | .statement s :: rest => if isEnd s then [] else s :: itemsOf rest
  | .blank :: rest | .origin _ :: rest | .malformed :: rest => itemsOf rest

/-- The malformed lines, as far as they are read. -/
def malformedOf : List Shape → Nat
  | [] => 0
  | .statement s :: rest => if isEnd s then 0 else malformedOf rest
  | .malformed :: rest => malformedOf rest + 1
  | .blank :: rest | .origin _ :: rest => malformedOf rest

theorem malformedOf_le {shape : Shape} (hform : shape ≠ .malformed) (rest : List Shape) :
    malformedOf (shape :: rest) ≤ malformedOf rest := by
  cases shape with
  | malformed => exact absurd rfl hform
  | blank | origin => exact le_refl _
  | statement s =>
    rw [malformedOf]
    split
    · exact Nat.zero_le _
    · exact le_refl _

theorem run_accepts {sk : Sketch} {line : Nat} {rest : List Shape} (hrunning : sk.stopped = false)
    (h : ∀ code ∈ (Sketch.run line rest sk).codes, code ∉ refusals) :
    (Sketch.run line rest sk).items.map Placed.statement =
        sk.items.map Placed.statement ++ itemsOf rest ∧
      (Sketch.run line rest sk).codes.count .MALFORMED_LINE =
        sk.codes.count .MALFORMED_LINE + malformedOf rest := by
  induction rest generalizing line sk with
  | nil => exact ⟨(List.append_nil _).symm, rfl⟩
  | cons shape rest ih =>
    have hstep := Sketch.step_running hrunning line shape
    cases shape with
    | blank =>
      rw [Sketch.run, hstep] at h ⊢
      exact ih hrunning h
    | malformed =>
      rw [Sketch.run, hstep] at h ⊢
      have hgoes : (sk.stepForm line .malformed).stopped = false := hrunning
      obtain ⟨hitems, hcount⟩ := ih hgoes h
      refine ⟨hitems, ?_⟩
      rw [hcount, Sketch.stepForm, Sketch.report, List.count_append, List.count_singleton_self,
        malformedOf]
      omega
    | origin digits =>
      have hother : List.count Code.MALFORMED_LINE [.UNEXPECTED_ORIGIN] = 0 := by decide
      rw [Sketch.run, hstep] at h ⊢
      rw [Sketch.stepForm] at h ⊢
      split at h
      · rename_i hlate
        have hgoes : (sk.report .UNEXPECTED_ORIGIN).stopped = false := hrunning
        obtain ⟨hitems, hcount⟩ := ih hgoes h
        rw [if_pos hlate]
        refine ⟨hitems, ?_⟩
        rw [hcount, Sketch.report, List.count_append, hother, malformedOf, Nat.add_zero]
      · rename_i hearly
        rw [if_neg hearly]
        exact ih hrunning h
    | statement s =>
      obtain ⟨address, haccept, -⟩ := step_accepts hrunning h
      rw [Sketch.run, haccept] at h ⊢
      cases hend : isEnd s with
      | true =>
        have hstopped : (sk.accept ⟨line, address, s⟩).stopped = true := by
          rw [Sketch.accept_stopped, hend]
        rw [Sketch.run_stopped hstopped, Sketch.accept_items, Sketch.accept_codes, itemsOf,
          malformedOf, hend]
        simp
      | false =>
        have hgoes : (sk.accept ⟨line, address, s⟩).stopped = false := by
          rw [Sketch.accept_stopped, hend]
        obtain ⟨hitems, hcount⟩ := ih hgoes h
        rw [hitems, hcount, Sketch.accept_items, Sketch.accept_codes, itemsOf, malformedOf, hend]
        simp

theorem Sketch.failures_statements (sk : Sketch) : sk.failures =
    (sk.items.map Placed.statement).flatMap fun s => failure (wordOf sk.addressOf s) := by
  rw [List.flatMap_map]
  rfl

/-- The codes of either pass are the same, since no code belongs to both. -/
theorem Sketch.Matches.sameCodes {source' : Str}
    (h : (sketchOf source).Matches (sketchOf source')) :
    (sketchOf source).codes = (sketchOf source').codes := by
  have hfirst : ∀ source, ((sketchOf source).codes ++ (sketchOf source).failures).filter
      (parserCodes.contains ·) = (sketchOf source).codes := by
    intro source
    obtain ⟨new, hnew, hparser⟩ := Sketch.run_reported {} 0 (shapes source)
    have hnew : (sketchOf source).codes = new := hnew
    rw [List.filter_append, List.filter_eq_self.mpr, List.filter_eq_nil_iff.mpr, List.append_nil]
    · intro code hcode
      rw [List.contains_iff_mem]
      exact mem_failures hcode
    · intro code hcode
      rw [hnew] at hcode
      exact List.contains_iff_mem.mpr (hparser code hcode)
  rw [← hfirst source, h.codes, hfirst source']

/-- A mark that gets into an operator is noticed, unless there is no such operator. -/
theorem noOperator_items {sk sk' : Sketch} {items : List Statement} {shape : Shape}
    {rest : List Shape} {s' : Statement} (h : sk.Matches sk') (hcodes : sk.codes = sk'.codes)
    (hform : shape ≠ .malformed) (hmark : noOperator s' = true)
    (hitems : sk.items.map Placed.statement = items ++ itemsOf (shape :: rest))
    (hitems' : sk'.items.map Placed.statement = items ++ itemsOf (.statement s' :: rest)) :
    ∃ s, shape = .statement s ∧ noOperator s = true := by
  rw [itemsOf, noOperator_isEnd hmark, if_neg Bool.false_ne_true] at hitems'
  have hlength : (itemsOf (shape :: rest)).length = (itemsOf rest).length + 1 := by
    have hwords := congrArg List.length h.words
    have hcount := congrArg List.length hitems
    have hcount' := congrArg List.length hitems'
    simp only [Sketch.words, List.length_map] at hwords
    simp only [List.length_map, List.length_append, List.length_cons] at hcount hcount'
    omega
  cases shape with
  | malformed => exact absurd rfl hform
  | blank | origin =>
    rw [itemsOf] at hlength
    omega
  | statement s =>
    refine ⟨s, rfl, ?_⟩
    cases hend : isEnd s with
    | true =>
      rw [itemsOf, hend] at hlength
      cases hlength
    | false =>
      have hfailures := h.codes
      rw [hcodes, List.append_cancel_left_eq, Sketch.failures_statements,
        Sketch.failures_statements, hitems, hitems', itemsOf, hend, if_neg Bool.false_ne_true,
        h.labels] at hfailures
      simp only [List.flatMap_append, List.flatMap_cons, List.append_cancel_left_eq,
        List.append_cancel_right_eq, wordOf_noOperator _ hmark] at hfailures
      exact noOperator_of_failure hend hfailures

/-- A mark that gets into a label is noticed where both labels are accepted. -/
theorem label_noticed {source' : Str} {sk : Sketch} {rest rest' : List Shape} {line line' : Nat}
    {p p' : Placed} {name name' : Str} (h : (sketchOf source).Matches (sketchOf source'))
    (hsource : sketchOf source = Sketch.run line rest (sk.accept p))
    (hsource' : sketchOf source' = Sketch.run line' rest' (sk.accept p'))
    (haddress : p.address = p'.address) (hname : p.statement.label = some name)
    (hname' : p'.statement.label = some name') : name = name' := by
  have hlaid := sketchOf_laid source'
  have hdefined : (sketchOf source).addressOf name = some p.address := by
    have hholds := (run_holds (sk.accept p) line rest).2 name (p.address, p.line)
    rw [Sketch.addressOf, hsource, hholds]
    · rfl
    · rw [Sketch.accept_labels, if_pos hname]
  rw [h.labels, Sketch.addressOf] at hdefined
  obtain ⟨⟨address, number⟩, hplace, heq⟩ := Option.map_eq_some_iff.mp hdefined
  obtain ⟨q, hq, hqname, hqaddress, -⟩ := (hlaid.labels name address number).mp hplace
  have hmem : p' ∈ (sketchOf source').statements := by
    rw [hsource']
    exact run_accept line' rest'
  have hsame : q = p' := by
    apply hlaid.unique hq hmem
    rw [hqaddress, ← haddress]
    exact heq
  rw [hsame, hname'] at hqname
  exact (Option.some.inj hqname).symm

/-- Every statement that the first pass comes to is accepted. -/
def Unrefused (source : Str) : Prop := ∀ d ∈ (parse source).2, d.code ∉ refusals

theorem parse_codes (source : Str) :
    (sketchOf source).codes = (parse source).2.map Diagnostic.code := by
  obtain ⟨st, hparse, hrefines⟩ := parse_refines source
  rw [hparse, ← hrefines.codes]

theorem Unrefused.codes (h : Unrefused source) :
    ∀ code ∈ (sketchOf source).codes, code ∉ refusals := by
  intro code hcode
  rw [parse_codes] at hcode
  obtain ⟨d, hd, rfl⟩ := List.mem_map.mp hcode
  exact h d hd

/-- Where no statement is refused, a mark that nobody notices is harmless. -/
theorem Harmless.of_unrefused (hline : (source.splitOn '\n')[number]? = some text)
    (hform : shapeOf text ≠ .malformed) (hrun : Leading run) (hunrefused : Unrefused source)
    (h : Unchanged (assemble source) (assemble (insertLeading run number source))) :
    Harmless source number run text := by
  rw [unchanged_iff] at h
  have hsame := h.sameCodes
  have hcodes := hunrefused.codes
  have hcodes' := hcodes
  rw [hsame] at hcodes'
  let rest := (shapes source).drop (number + 1)
  have hsource : sketchOf source =
      Sketch.run number (shapeOf text :: rest) (sketchUpTo source number) := sketchOf_upTo hline
  have hsource' : sketchOf (insertLeading run number source) =
      Sketch.run number (shapeOf (run ++ text) :: rest) (sketchUpTo source number) :=
    sketchOf_insertLeading hline hrun.newline
  by_cases hmark : BYTE_ORDER_MARK ∈ run
  · right
    cases hstopped : (sketchUpTo source number).stopped with
    | true => exact .inl rfl
    | false =>
      right
      rw [hsource] at hcodes
      rw [hsource'] at hcodes'
      rcases shapeOf_marked hform hrun hmark with ⟨hplain, hmarked⟩ |
        ⟨s, s', name, name', hs, hs', hname, hname', hne⟩
      · obtain ⟨hitems, hcount⟩ := run_accepts hstopped hcodes
        obtain ⟨hitems', hcount'⟩ := run_accepts hstopped hcodes'
        rw [← hsource] at hitems hcount
        rw [← hsource'] at hitems' hcount'
        rcases hmarked with hbad | ⟨word, operand, hmarked⟩
        · rw [hbad, ← hsame, hcount, malformedOf] at hcount'
          have hfewer := malformedOf_le hform rest
          omega
        · rw [hmarked] at hitems'
          obtain ⟨s, hs, hoperator⟩ := noOperator_items h hsame hform
            (noOperator_mark none word operand) hitems hitems'
          exact ⟨s, _, hs, hmarked, .inr (.inr ⟨hplain s hs, hoperator⟩)⟩
      · rw [hs] at hsource hcodes
        rw [hs'] at hsource' hcodes'
        obtain ⟨address, hstep, hroom⟩ := step_accepts hstopped hcodes
        obtain ⟨address', hstep', hroom'⟩ := step_accepts hstopped hcodes'
        rw [Sketch.run, hstep] at hsource
        rw [Sketch.run, hstep'] at hsource'
        have haddress : address = address' := Option.some.inj (hroom.symm.trans hroom')
        exact absurd (label_noticed h hsource hsource' haddress hname hname') hne
  · exact .inl hmark

theorem shapeOf_form {base : Nat} (hform : splitLine text base ≠ .malformed) :
    shapeOf text ≠ .malformed := by
  obtain ⟨ranges, hordered, hranges⟩ := splitLine_ranges text
  rw [shapeOf_ranges hordered (hranges 0)]
  rw [hranges base] at hform
  cases ranges with
  | malformed => exact absurd rfl hform
  | blank | origin | statement =>
    intro hbad
    cases hbad

/-- `Halt` is not what it was with a byte order mark in front. -/
theorem halt_marked (hrun : Leading run)
    (h : Unchanged (assemble "Halt".toList) (assemble (insertLeading run 0 "Halt".toList))) :
    BYTE_ORDER_MARK ∉ run := by
  have hline : ("Halt".toList.splitOn '\n')[0]? = some "Halt".toList := by decide
  have hform : shapeOf "Halt".toList ≠ .malformed := by decide
  rcases Harmless.of_unchanged hline (by decide) hform hrun h with
    hmark | hstopped | ⟨s, s', hs, -, hover⟩
  · exact hmark
  · exact absurd hstopped (by decide)
  · have hhalt : shapeOf "Halt".toList = .statement ⟨none, "Halt".toList, none⟩ := by decide
    rw [hhalt] at hs
    cases hs
    rcases hover with hfull | ⟨code, hcode, -⟩ | ⟨-, hoperator⟩
    · exact absurd hfull (by decide)
    · cases hcode
    · exact absurd hoperator (by decide)

/-- Whitespace in front of a line changes nothing, as long as there is no byte order mark in it.
With one, the line has to be past the end of the program, or to fail with the mark as without;
where no statement is refused, and on the last line of any source, there is no other way out. -/
theorem leading_whitespace {run : Str} (hrun : Leading run) :
    ((∀ source text number base, AtLine source text number base →
        splitLine text base ≠ .malformed →
          Unchanged (assemble source) (assemble (insertLeading run number source))) ↔
      BYTE_ORDER_MARK ∉ run) ∧
    ∀ source text number base, AtLine source text number base → splitLine text base ≠ .malformed →
      (Harmless source number run text →
        Unchanged (assemble source) (assemble (insertLeading run number source))) ∧
      (Unrefused source ∨ number + 1 = (source.splitOn '\n').length →
        (Unchanged (assemble source) (assemble (insertLeading run number source)) ↔
          Harmless source number run text)) := by
  refine ⟨⟨?_, ?_⟩, ?_⟩
  · intro h
    have hline : AtLine "Halt".toList "Halt".toList 0 0 := ⟨by decide, rfl⟩
    exact halt_marked hrun (h _ _ 0 0 hline (by decide))
  · intro hmark source text number base hline hform
    exact Harmless.unchanged hline.line (shapeOf_form hform) hrun (.inl hmark)
  · intro source text number base hline hform
    have henough := Harmless.unchanged hline.line (shapeOf_form hform) hrun
    refine ⟨henough, fun hcase => ⟨?_, henough⟩⟩
    rcases hcase with hunrefused | hlast
    · exact Harmless.of_unrefused hline.line (shapeOf_form hform) hrun hunrefused
    · exact Harmless.of_unchanged hline.line hlast (shapeOf_form hform) hrun

theorem leading_whitespace_tab :
    Unchanged (assemble "Halt".toList) (assemble "\tHalt".toList) := by
  have htab : Leading ['\t'] := ⟨by decide, by decide⟩
  have hline : AtLine "Halt".toList "Halt".toList 0 0 := ⟨by decide, rfl⟩
  exact (leading_whitespace htab).1.mpr (by decide) _ _ 0 0 hline (by decide)

/-- A file of one instruction, saved by an editor that starts it with a byte order mark. -/
theorem leading_whitespace_mark : Leading [BYTE_ORDER_MARK] ∧
    AtLine "Halt".toList "Halt".toList 0 0 ∧ splitLine "Halt".toList 0 ≠ .malformed ∧
    ¬Unchanged (assemble "Halt".toList)
      (assemble (insertLeading [BYTE_ORDER_MARK] 0 "Halt".toList)) := by
  refine ⟨⟨by decide, by decide⟩, ⟨by decide, rfl⟩, by decide, ?_⟩
  intro h
  exact absurd h.words (by decide +kernel)

end MarieRs.Asm
