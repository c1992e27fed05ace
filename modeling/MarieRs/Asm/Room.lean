import MarieRs.Asm.Layout

namespace MarieRs.Asm

/-- Whether the label of a statement, if it has one, is accepted after `seen`. -/
def acceptable (seen : List Str) (s : Statement) : Bool :=
  match s.label with
  | none => true
  | some name =>
    !(name.head?).any isAsciiDigit && !name.any isWhitespace && !seen.contains name

/-- The statement lines up to the first `END` that counts: for each, whether it
emits a word. -/
def marks (seen : List Str) : List Shape → List Bool
  | [] => []
  | .statement s :: rest =>
    if ¬ acceptable seen s then false :: marks seen rest
    else if isEnd s then [false]
    else true :: marks (s.label.toList ++ seen) rest
  | .blank :: rest | .origin _ :: rest | .malformed :: rest => marks seen rest

/-- The words that a source emits. -/
def emitted (source : Str) : Nat := (marks [] (shapes source)).count true

def originValue (digits : Str) : MemoryAddress :=
  MemoryAddress.newMasked (BitVec.ofNat 16 ((fromStrRadix (2 ^ 16 - 1) 16 digits).getD 0))

/-- The origin: that of the first `ORG` line, if it comes before any word. -/
def originFrom : List Shape → MemoryAddress
  | [] => MemoryAddress.zero
  | .origin digits :: _ => originValue digits
  | .statement s :: rest => if acceptable [] s then MemoryAddress.zero else originFrom rest
  | .blank :: rest | .malformed :: rest => originFrom rest

/-- The codes for a label that is not accepted. -/
def labelCodes : List Code :=
  [.LABEL_STARTS_WITH_DIGIT, .LABEL_CONTAINS_WHITESPACE, .DUPLICATE_LABEL]

/-- The codes of the first pass. -/
def parserCodes : List Code :=
  [.MALFORMED_LINE, .UNEXPECTED_ORIGIN, .PROGRAM_TOO_LARGE] ++ labelCodes

theorem rejection_code {labels : Str → Option (MemoryAddress × Nat)} {name : Str} {code : Code}
    (h : rejection labels name = some code) : code ∈ labelCodes := by
  unfold rejection at h
  repeat' first | split at h | cases h
  all_goals decide

namespace Sketch

/-- The labels of a sketch are those of `seen`. -/
def Knows (sk : Sketch) (seen : List Str) : Prop := ∀ name, (sk.labels name).isSome ↔ name ∈ seen

theorem Knows.acceptable {sk : Sketch} {seen : List Str} (h : sk.Knows seen) (s : Statement) :
    s.label.bind (rejection sk.labels) = none ↔ acceptable seen s = true := by
  unfold Asm.acceptable
  cases s.label with
  | none => simp
  | some name =>
    have hseen : (sk.labels name).isSome = seen.contains name := by
      rw [Bool.eq_iff_iff, h name, List.contains_iff_mem]
    simp only [Option.bind_some, rejection, hseen]
    split
    · simp_all
    · split
      · simp_all
      · split <;> simp_all

theorem knows_nothing : ({} : Sketch).Knows [] := by simp [Knows]

theorem Knows.report {sk : Sketch} {seen : List Str} (h : sk.Knows seen) (code : Code) :
    (sk.report code).Knows seen := h

theorem Knows.accept {sk : Sketch} {seen : List Str} (h : sk.Knows seen) (p : Placed) :
    (sk.accept p).Knows (p.statement.label.toList ++ seen) := by
  intro name
  rw [accept_labels, List.mem_append, Option.mem_toList, ← h name]
  split <;> simp_all

/-- What every line keeps, a run keeps. -/
theorem run_invariant (P : Sketch → Prop)
    (hstep : ∀ sk, P sk → ∀ line shape, P (sk.step line shape)) {sk : Sketch} (h : P sk)
    (line : Nat) (rest : List Shape) : P (run line rest sk) := by
  induction rest generalizing line sk with
  | nil => exact h
  | cons shape rest ih => exact ih (hstep sk h line shape) (line + 1)

theorem run_stopped {sk : Sketch} (h : sk.stopped = true) (line : Nat) (rest : List Shape) :
    run line rest sk = sk := by
  apply run_invariant (· = sk) ?_ rfl
  rintro sk rfl line shape
  exact step_stopped h line shape

theorem step_reported (sk : Sketch) (line : Nat) (shape : Shape) :
    ∃ new, (sk.step line shape).codes = sk.codes ++ new ∧ ∀ code ∈ new, code ∈ parserCodes := by
  have hnone : ∃ new, sk.codes = sk.codes ++ new ∧ ∀ code ∈ new, code ∈ parserCodes :=
    ⟨[], (List.append_nil _).symm, fun code hcode => by cases hcode⟩
  have hone : ∀ code ∈ parserCodes, ∃ new,
      sk.codes ++ [code] = sk.codes ++ new ∧ ∀ code ∈ new, code ∈ parserCodes := by
    intro code hcode
    refine ⟨[code], rfl, ?_⟩
    intro other hother
    rw [List.mem_singleton.mp hother]
    exact hcode
  cases hstopped : sk.stopped with
  | true =>
    rw [step_stopped hstopped]
    exact hnone
  | false =>
    rw [step_running hstopped]
    cases shape with
    | blank => exact hnone
    | malformed => exact hone _ (by decide)
    | origin digits =>
      simp only [stepForm]
      split
      · exact hone _ (by decide)
      · exact hnone
    | statement s =>
      simp only [stepForm, stepStatement]
      split
      · exact hone _ (by decide)
      · split
        · rename_i code hcode
          obtain ⟨name, -, hrejected⟩ := Option.bind_eq_some_iff.mp hcode
          exact hone code (List.mem_append_right _ (rejection_code hrejected))
        · rw [accept_codes]
          exact hnone

theorem run_reported (sk : Sketch) (line : Nat) (rest : List Shape) :
    ∃ new, (run line rest sk).codes = sk.codes ++ new ∧
      ∀ code ∈ new, code ∈ parserCodes := by
  apply run_invariant (fun sk' => ∃ new, sk'.codes = sk.codes ++ new ∧
    ∀ code ∈ new, code ∈ parserCodes)
  · rintro sk' ⟨first, hfirst, hcodes⟩ line shape
    obtain ⟨later, hlater, hcodes'⟩ := sk'.step_reported line shape
    refine ⟨first ++ later, ?_, ?_⟩
    · rw [hlater, hfirst, List.append_assoc]
    · intro code hcode
      rcases List.mem_append.mp hcode with hcode | hcode
      · exact hcodes code hcode
      · exact hcodes' code hcode
  · exact ⟨[], (List.append_nil _).symm, fun code hcode => by cases hcode⟩

/-- No `ORG` line changes the origin any more. -/
def Settled (sk : Sketch) : Prop := sk.items ≠ [] ∨ sk.origin.isSome ∨ sk.stopped = true

theorem Settled.step {sk : Sketch} (h : sk.Settled) (line : Nat) (shape : Shape) :
    (sk.step line shape).Settled ∧ (sk.step line shape).originAddress = sk.originAddress := by
  have hmoves := sk.step_moves line shape
  generalize sk.step line shape = sk' at hmoves ⊢
  cases hmoves with
  | stays codes stopped hstopped =>
    refine ⟨h.imp_right (Or.imp_right fun h => ?_), rfl⟩
    cases stopped with
    | true => rfl
    | false => rw [hstopped rfl] at h; cases h
  | origin address hrunning hitems horigin => simp [Settled, hrunning, hitems, horigin] at h
  | accepts s address hshape hrunning haddress hlabel =>
    refine ⟨?_, accept_origin _ _⟩
    cases hend : isEnd s with
    | true => exact .inr (.inr (by rw [accept_stopped, hend]))
    | false => exact .inl (by rw [accept_items]; simp [hend])

theorem Settled.run {sk : Sketch} (h : sk.Settled) (line : Nat) (rest : List Shape) :
    (Sketch.run line rest sk).originAddress = sk.originAddress := by
  have hkept : ∀ sk' : Sketch, sk'.Settled ∧ sk'.originAddress = sk.originAddress → ∀ line shape,
      (sk'.step line shape).Settled ∧ (sk'.step line shape).originAddress = sk.originAddress := by
    rintro sk' ⟨hsettled, horigin⟩ line shape
    obtain ⟨hstep, hsame⟩ := hsettled.step line shape
    exact ⟨hstep, hsame.trans horigin⟩
  exact (run_invariant _ hkept ⟨h, rfl⟩ line rest).2

theorem run_origin {sk : Sketch} (hknows : sk.Knows []) (hitems : sk.items = [])
    (horigin : sk.origin = none) (hrunning : sk.stopped = false) (line : Nat)
    (rest : List Shape) : (run line rest sk).originAddress = originFrom rest := by
  induction rest generalizing sk line with
  | nil =>
    rw [run, originAddress, horigin]
    rfl
  | cons shape rest ih =>
    rw [run, step_running hrunning]
    cases shape with
    | blank => exact ih hknows hitems horigin hrunning (line + 1)
    | malformed => exact ih (hknows.report _) hitems horigin hrunning (line + 1)
    | origin digits =>
      simp only [stepForm, hitems, horigin, List.isEmpty_nil, not_true, Option.isSome_none,
        Bool.false_eq_true, or_self, if_false]
      rw [Settled.run (.inr (.inl rfl))]
      rfl
    | statement s =>
      have hroom : MemoryAddress.tryNew (sk.originAddress.toNat + sk.items.length) =
          some sk.originAddress := by
        rw [MemoryAddress.tryNew_eq_some, hitems, List.length_nil, Nat.add_zero]
      simp only [stepForm, stepStatement, hroom, originFrom]
      cases hbind : s.label.bind (rejection sk.labels) with
      | none =>
        have hsettled : (sk.accept ⟨line, sk.originAddress, s⟩).Settled := by
          cases hend : isEnd s with
          | true => exact .inr (.inr (by rw [accept_stopped, hend]))
          | false => exact .inl (by rw [accept_items]; simp [hend])
        rw [if_pos ((hknows.acceptable s).mp hbind), hsettled.run, accept_origin, originAddress,
          horigin]
      | some code =>
        have hnot : ¬ acceptable [] s = true := by
          rw [← hknows.acceptable s, hbind]
          simp
        rw [if_neg hnot]
        exact ih (hknows.report code) hitems horigin hrunning (line + 1)

/-- A rejected label never makes a program too large. -/
theorem rejection_ne {labels : Str → Option (MemoryAddress × Nat)} {name : Str} {code : Code}
    (h : rejection labels name = some code) : code ≠ .PROGRAM_TOO_LARGE := by
  rintro rfl
  exact absurd (rejection_code h) (by decide)

theorem count_dropLast_cons (b : Bool) (l : List Bool) :
    (b :: l).dropLast.count true = if l = [] then 0 else l.dropLast.count true + b.toNat := by
  cases l with
  | nil => rfl
  | cons c l => cases b <;> simp

/-- The mark of a statement that has room counts towards the ones after it. -/
theorem room_cons {b : Bool} {l : List Bool} {used cap : Nat} (h : used < cap) :
    ((b :: l) ≠ [] ∧ cap ≤ used + (b :: l).dropLast.count true) ↔
      (l ≠ [] ∧ cap ≤ used + b.toNat + l.dropLast.count true) := by
  rw [count_dropLast_cons]
  cases l with
  | nil =>
    refine iff_of_false (fun hcap => ?_) (fun hcap => hcap.1 rfl)
    rw [if_pos rfl, Nat.add_zero] at hcap
    omega
  | cons c l =>
    rw [if_neg (by simp)]
    refine and_congr (by simp) ?_
    omega

/-- The words of a running sketch fit in memory. -/
def Fits (sk : Sketch) : Prop :=
  sk.items ≠ [] → sk.originAddress.toNat + sk.items.length ≤ MEMORY_WORD_COUNT

theorem run_fits {sk : Sketch} {line : Nat} {rest : List Shape}
    (h : sk.originAddress.toNat + sk.items.length < MEMORY_WORD_COUNT) :
    (run line rest sk).originAddress.toNat + sk.items.length < MEMORY_WORD_COUNT := by
  by_cases hitems : sk.items = []
  · rw [hitems]
    exact (run line rest sk).originAddress.isLt
  · rw [Settled.run (.inl hitems)]
    exact h

theorem report_codes {sk : Sketch} {code : Code} (hcode : code ≠ .PROGRAM_TOO_LARGE)
    (h : Code.PROGRAM_TOO_LARGE ∉ sk.codes) :
    Code.PROGRAM_TOO_LARGE ∉ (sk.report code).codes := by
  intro hmem
  rcases List.mem_append.mp hmem with hmem | hmem
  · exact h hmem
  · exact hcode (List.mem_singleton.mp hmem).symm

/-- A running sketch reports a program as too large when a statement line comes
after the last word that fits. -/
theorem run_tooLarge {sk : Sketch} {seen : List Str} (hknows : sk.Knows seen)
    (hrunning : sk.stopped = false) (hcodes : Code.PROGRAM_TOO_LARGE ∉ sk.codes)
    (hfits : sk.Fits) (line : Nat) (rest : List Shape) :
    Code.PROGRAM_TOO_LARGE ∈ (run line rest sk).codes ↔
      marks seen rest ≠ [] ∧ MEMORY_WORD_COUNT ≤ (run line rest sk).originAddress.toNat +
        sk.items.length + (marks seen rest).dropLast.count true := by
  induction rest generalizing sk seen line with
  | nil => simp [run, marks, hcodes]
  | cons shape rest ih =>
    rw [run, step_running hrunning]
    cases shape with
    | blank => exact ih hknows hrunning hcodes hfits (line + 1)
    | malformed =>
      exact ih (hknows.report .MALFORMED_LINE) hrunning (report_codes (by decide) hcodes) hfits
        (line + 1)
    | origin digits =>
      simp only [stepForm]
      split
      · exact ih (hknows.report .UNEXPECTED_ORIGIN) hrunning (report_codes (by decide) hcodes)
          hfits (line + 1)
      · rename_i hfirst
        rw [not_or, not_not, List.isEmpty_iff] at hfirst
        have hknows' : ({ sk with origin := some (originValue digits) } : Sketch).Knows seen :=
          hknows
        exact ih hknows' hrunning hcodes (fun hitems => absurd hfirst.1 hitems) (line + 1)
    | statement s =>
      simp only [stepForm, stepStatement]
      cases hroom : MemoryAddress.tryNew (sk.originAddress.toNat + sk.items.length) with
      | none =>
        have hfull := MemoryAddress.tryNew_eq_none.mp hroom
        have hmarks : marks seen (.statement s :: rest) ≠ [] := by
          rw [marks]
          split <;> [skip; split] <;> simp
        simp only
        rw [run_stopped rfl]
        refine iff_of_true (by simp [report]) ⟨hmarks, ?_⟩
        exact Nat.le_add_right_of_le hfull
      | some address =>
        have haddress := MemoryAddress.tryNew_eq_some.mp hroom
        have hlt : sk.originAddress.toNat + sk.items.length < MEMORY_WORD_COUNT :=
          haddress ▸ address.isLt
        simp only
        cases hbind : s.label.bind (rejection sk.labels) with
        | some code =>
          have hnot : ¬ acceptable seen s = true := by
            rw [← hknows.acceptable s, hbind]
            simp
          obtain ⟨name, -, hrejection⟩ := Option.bind_eq_some_iff.mp hbind
          have hrest : (run (line + 1) rest (sk.report code)).originAddress.toNat +
              sk.items.length < MEMORY_WORD_COUNT := run_fits hlt
          rw [marks, if_pos hnot, room_cons hrest]
          exact ih (hknows.report code) hrunning (report_codes (rejection_ne hrejection) hcodes)
            hfits (line + 1)
        | none =>
          have hacceptable := (hknows.acceptable s).mp hbind
          rw [marks, if_neg (not_not.mpr hacceptable)]
          simp only
          cases hend : isEnd s with
          | true =>
            have hstopped : (sk.accept ⟨line, address, s⟩).stopped = true := by
              rw [accept_stopped, hend]
            rw [run_stopped hstopped, accept_codes, accept_origin]
            refine iff_of_false hcodes ?_
            simp only [if_true, List.dropLast_singleton, List.count_nil]
            omega
          | false =>
            have hitems : (sk.accept ⟨line, address, s⟩).items.length = sk.items.length + 1 := by
              rw [accept_items]
              simp [hend]
            have hrest : (run (line + 1) rest (sk.accept ⟨line, address, s⟩)).originAddress =
                sk.originAddress := by
              rw [Settled.run (.inl (List.ne_nil_of_length_eq_add_one hitems)), accept_origin]
            have hstep := ih (hknows.accept ⟨line, address, s⟩)
              (by rw [accept_stopped, hend]) (by rwa [accept_codes])
              (fun _ => by rw [accept_origin, hitems]; exact hlt) (line + 1)
            rw [hrest, hitems] at hstep
            rw [hrest]
            simp only [Bool.false_eq_true, if_false]
            rw [room_cons hlt]
            exact hstep

end Sketch

/-- The origin of a parsed source is a matter of its lines. -/
theorem parse_origin (source : Str) :
    (parse source).1.program.originAddress = originFrom (shapes source) := by
  obtain ⟨st, hparse, hrefines⟩ := parse_refines source
  rw [hparse, hrefines.originAddress]
  exact Sketch.run_origin Sketch.knows_nothing rfl rfl rfl 0 (shapes source)

/-- A statement line has no address left exactly if the words before it fill memory. -/
theorem parse_tooLarge (source : Str) :
    (∃ d ∈ (parse source).2, d.code = .PROGRAM_TOO_LARGE) ↔
      marks [] (shapes source) ≠ [] ∧ MEMORY_WORD_COUNT ≤
        (originFrom (shapes source)).toNat + (marks [] (shapes source)).dropLast.count true := by
  obtain ⟨st, hparse, hrefines⟩ := parse_refines source
  have hrun := Sketch.run_tooLarge Sketch.knows_nothing rfl List.not_mem_nil
    (fun hitems => absurd rfl hitems) 0 (shapes source)
  rw [Sketch.run_origin Sketch.knows_nothing rfl rfl rfl] at hrun
  rw [hparse, ← List.mem_map, hrefines.codes]
  exact hrun

/-- The first pass reports a program as too large exactly if its words outnumber
the addresses from its origin on. -/
def TooLargeExactly (source : Str) : Prop :=
  (∃ d ∈ (parse source).2, d.code = .PROGRAM_TOO_LARGE) ↔
    MEMORY_WORD_COUNT - (parse source).1.program.originAddress.toNat < emitted source

/-- The words fill memory up to its last address, and a statement line that emits
none, `END` or one with a rejected label, comes after them. -/
def FullBeforeEnd (source : Str) : Prop :=
  emitted source = MEMORY_WORD_COUNT - (originFrom (shapes source)).toNat ∧
    (marks [] (shapes source)).getLast? = some false

theorem tooLargeExactly_iff (source : Str) : TooLargeExactly source ↔ ¬ FullBeforeEnd source := by
  have hcap : (originFrom (shapes source)).toNat < MEMORY_WORD_COUNT :=
    (originFrom (shapes source)).isLt
  rw [TooLargeExactly, FullBeforeEnd, parse_tooLarge, parse_origin, emitted]
  rcases List.eq_nil_or_concat (marks [] (shapes source)) with hnil | ⟨before, last, hlast⟩
  · rw [hnil]
    simp only [ne_eq, not_true, false_and, List.count_nil, List.getLast?_nil, reduceCtorEq,
      and_false, not_false_iff, iff_true, false_iff]
    omega
  · rw [hlast, List.concat_eq_append]
    simp only [List.dropLast_concat, List.count_append, List.getLast?_concat, ne_eq,
      List.append_eq_nil_iff, List.cons_ne_self, and_false, not_false_iff, true_and,
      Option.some.injEq]
    -- only a last line without a word of its own tells the two counts apart
    cases last with
    | true =>
      simp only [List.count_singleton_self, reduceCtorEq, and_false, not_false_iff, iff_true]
      omega
    | false =>
      have hzero : [false].count true = 0 := by decide
      simp only [hzero, Nat.add_zero, and_true]
      omega

/-- One word at the last address, and the `END` line that every program may have. -/
theorem full_memory_rejects_end : ¬ TooLargeExactly "ORG FFF\nHalt\nEND".toList := by
  unfold TooLargeExactly
  decide +kernel

end MarieRs.Asm
