import MarieRs.Asm.Pieces

namespace MarieRs.Asm

open Lib.Splice (Piece Edit editsOf walk)

/-- A line, its number and the byte at which it starts. -/
structure Line where
  text : Str
  number : Nat
  base : Nat

def numbered : Nat → Nat → List Str → List Line
  | _, _, [] => []
  | number, base, text :: rest =>
    ⟨text, number, base⟩ :: numbered (number + 1) (base + utf8Len text + 1) rest

def linesOf (source : Str) : List Line := numbered 0 0 (source.splitOn '\n')

theorem numbered_text (number base : Nat) (lines : List Str) :
    (numbered number base lines).map Line.text = lines := by
  induction lines generalizing number base with
  | nil => rfl
  | cons text rest ih => rw [numbered, List.map_cons, ih]

theorem numbered_number (number base : Nat) (lines : List Str) :
    (numbered number base lines).map Line.number = List.range' number lines.length := by
  induction lines generalizing number base with
  | nil => rfl
  | cons text rest ih => rw [numbered, List.map_cons, ih, List.length_cons, List.range'_succ]

theorem mem_numbered {source : Str} {number base : Nat} {rest : List Str}
    (hrest : (source.splitOn '\n').drop number = rest)
    (hbase : base = utf8Len (joined ((source.splitOn '\n').take number))) :
    ∀ l ∈ numbered number base rest, AtLine source l.text l.number l.base := by
  induction rest generalizing number base with
  | nil => simp [numbered]
  | cons text rest ih =>
    have hline : (source.splitOn '\n')[number]? = some text := by
      rw [← List.head?_drop, hrest, List.head?_cons]
    intro l hl
    rcases List.mem_cons.mp hl with rfl | hl
    · exact ⟨hline, hbase⟩
    · refine ih ?_ ?_ l hl
      · rw [← List.drop_drop, hrest, List.drop_one, List.tail_cons]
      · rw [joined_take_succ hline, hbase]

theorem mem_linesOf {source : Str} {l : Line} (h : l ∈ linesOf source) :
    AtLine source l.text l.number l.base :=
  mem_numbered List.drop_zero rfl l h

theorem AtLine.unique {source text text' : Str} {number base base' : Nat}
    (h : AtLine source text number base) (h' : AtLine source text' number base') :
    text = text' ∧ base = base' := by
  refine ⟨?_, h.base.trans h'.base.symm⟩
  have hline := h.line
  rw [h'.line] at hline
  exact (Option.some.inj hline).symm

theorem flatMap_single {κ β : Type} {keys : List κ} (hnodup : keys.Nodup) {k : κ} (hk : k ∈ keys)
    {f : κ → List β} (hf : ∀ k' ∈ keys, k' ≠ k → f k' = []) : keys.flatMap f = f k := by
  obtain ⟨before, after, rfl⟩ := List.append_of_mem hk
  obtain ⟨-, hafter, hdisjoint⟩ := List.nodup_append.mp hnodup
  have hbefore : before.flatMap f = [] :=
    List.flatMap_eq_nil_iff.mpr fun k' hk' =>
      hf k' (List.mem_append_left _ hk') (hdisjoint k' hk' k List.mem_cons_self)
  have hrest : after.flatMap f = [] :=
    List.flatMap_eq_nil_iff.mpr fun k' hk' =>
      hf k' (by simp [hk']) (fun heq => (List.nodup_cons.mp hafter).1 (heq ▸ hk'))
  rw [List.flatMap_append, List.flatMap_cons, hbefore, hrest, List.nil_append, List.append_nil]

/-- Going through the keys, then through the elements with each, is going through
the elements. -/
theorem flatMap_fibers {κ α β : Type} [DecidableEq κ] {keys : List κ} (hnodup : keys.Nodup)
    {l : List α} (key : α → κ) (hkeys : ∀ a ∈ l, key a ∈ keys) (f : α → List β) :
    (keys.flatMap fun k => (l.filter fun a => key a = k).flatMap f).Perm (l.flatMap f) := by
  induction l with
  | nil => simp
  | cons a l ih =>
    have hfiber : (fun k => ((a :: l).filter fun a => key a = k).flatMap f) = fun k =>
        (if key a = k then f a else []) ++ (l.filter fun a => key a = k).flatMap f := by
      funext k
      by_cases hk : key a = k <;> simp [hk]
    have hfirst : keys.flatMap (fun k => if key a = k then f a else []) = f a := by
      refine (flatMap_single hnodup (hkeys a List.mem_cons_self) fun k _ hk => ?_).trans ?_
      · rw [if_neg (Ne.symm hk)]
      · rw [if_pos rfl]
    rw [hfiber, List.flatMap_cons]
    refine (List.flatMap_append_perm keys _ _).symm.trans ?_
    rw [hfirst]
    exact (ih fun b hb => hkeys b (List.mem_cons_of_mem _ hb)).append_left _

theorem filter_key {α : Type} {key : α → Nat} {l : List α}
    (h : l.Pairwise fun a b => key a < key b) {a : α} (ha : a ∈ l) :
    l.filter (fun b => key b = key a) = [a] := by
  induction l with
  | nil => cases ha
  | cons b l ih =>
    obtain ⟨hb, hl⟩ := List.pairwise_cons.mp h
    rcases List.mem_cons.mp ha with rfl | ha
    · have hnone : l.filter (fun b => key b = key a) = [] :=
        List.filter_eq_nil_iff.mpr fun c hc => by simpa using (hb c hc).ne'
      rw [List.filter_cons_of_pos (by simp), hnone]
    · rw [List.filter_cons_of_neg (by simpa using (hb a ha).ne), ih hl ha]

theorem flatMap_intercalate {α β : Type} (f : α → List β) (separator : List α)
    (parts : List (List α)) :
    (List.intercalate separator parts).flatMap f =
      List.intercalate (separator.flatMap f) (parts.map (·.flatMap f)) := by
  induction parts with
  | nil => rfl
  | cons first rest ih =>
    cases rest with
    | nil => simp
    | cons second rest =>
      rw [List.intercalate_cons_cons, List.flatMap_append, List.flatMap_append, ih]
      simp only [List.map_cons, List.intercalate_cons_cons]

/-- The lines of pieces, put together again. -/
def together (lines : List (List (Piece Char))) : List (Piece Char) :=
  List.intercalate [.keep ['\n']] lines

theorem together_before (lines : List (List (Piece Char))) :
    (together lines).flatMap Piece.before =
      List.intercalate ['\n'] (lines.map (·.flatMap Piece.before)) :=
  flatMap_intercalate ..

theorem together_after (lines : List (List (Piece Char))) :
    (together lines).flatMap Piece.after =
      List.intercalate ['\n'] (lines.map (·.flatMap Piece.after)) :=
  flatMap_intercalate ..

theorem together_edits {number base : Nat} {lines : List Str} {cut : Line → List (Piece Char)}
    (hcut : ∀ l ∈ numbered number base lines, (cut l).flatMap Piece.before = l.text) :
    editsOf nextByte base (together ((numbered number base lines).map cut)) =
      (numbered number base lines).flatMap fun l => editsOf nextByte l.base (cut l) := by
  induction lines generalizing number base with
  | nil => rfl
  | cons text rest ih =>
    cases rest with
    | nil => simp [numbered, together]
    | cons second rest =>
      have hfirst := hcut ⟨text, number, base⟩ List.mem_cons_self
      have hrest := ih fun l hl => hcut l (List.mem_cons_of_mem _ hl)
      have hnewline : '\n'.utf8Size = 1 := by decide
      rw [numbered, List.map_cons, List.flatMap_cons, ← hrest]
      rw [numbered, List.map_cons, together, List.intercalate_cons_cons, List.append_assoc,
        Lib.Splice.editsOf_append, hfirst, walk_nextByte]
      simp only [List.singleton_append, editsOf, walk_nextByte, utf8Len_cons, utf8Len_nil,
        hnewline, Nat.add_zero]
      rfl

/-- What a label can be renamed to. -/
structure NewName (name : Str) : Prop where
  nonempty : name ≠ []
  named : Sketch.WellNamed name
  label : name.all isLabelChar = true

theorem NewName.space {name : Str} (h : NewName name) :
    ∀ c ∈ name, isWhitespace c = false := by
  simpa using h.named.2

theorem NewName.word {name : Str} (h : NewName name) : IsWord name := by
  have hchar : ∀ c ∈ name, isBare c = true := by
    intro c hc
    have hlabel := List.all_eq_true.mp h.label c hc
    simp only [isLabelChar, Bool.and_eq_true] at hlabel
    simp [isBare, isWordChar, h.space c hc, hlabel]
  cases name with
  | nil => exact absurd rfl h.nonempty
  | cons c rest =>
    exact ⟨c, rest, rfl, bare_word (hchar c List.mem_cons_self),
      List.all_eq_true.mpr fun d hd => hchar d (List.mem_cons_of_mem _ hd)⟩

/-- A defined label of a program without errors, and a name that is free for it. -/
structure Relabels (source old new : Str) : Prop where
  succeeded : (assemble source).succeeded = true
  defined : ((sketchOf source).labels old).isSome = true
  fresh : new = old ∨ (sketchOf source).labels new = none
  name : NewName new

/-- A line is cut at its label and its operand if its statement was placed. -/
def cutLine (sk : Sketch) (old new : Str) (l : Line) : List (Piece Char) :=
  match sk.addressFor l.number, lexLine l.text with
  | some _, some p => p.pieces old new
  | _, _ => [.keep l.text]

def cutSource (source old new : Str) : List (Piece Char) :=
  together ((linesOf source).map (cutLine (sketchOf source) old new))

/-- The line of a placed statement, in parts. -/
structure Live (sk : Sketch) (l : Line) (q : Placed) (p : Parts) : Prop where
  placed : q ∈ sk.statements
  line : q.line = l.number
  valid : p.Valid
  text : p.text = l.text
  statement : p.statement = q.statement
  shape : shapeOf l.text = .statement q.statement

theorem Live.address {source : Str} {l : Line} {q : Placed} {p : Parts}
    (h : Live (sketchOf source) l q p) :
    (sketchOf source).addressFor l.number = some q.address :=
  ((sketchOf_laid source).addressFor l.number q.address).mpr ⟨q, h.placed, rfl, h.line⟩

theorem Live.cut {source : Str} {l : Line} {q : Placed} {p : Parts}
    (h : Live (sketchOf source) l q p) (old new : Str) :
    cutLine (sketchOf source) old new l = p.pieces old new := by
  rw [cutLine, h.address, ← h.text, lexLine_text h.valid]

theorem live_of_address {source : Str} {l : Line} (hl : l ∈ linesOf source)
    {address : MemoryAddress} (h : (sketchOf source).addressFor l.number = some address) :
    ∃ q p, Live (sketchOf source) l q p := by
  have hlaid := sketchOf_laid source
  obtain ⟨q, hq, -, hline⟩ := (hlaid.addressFor l.number address).mp h
  have hshape := (hlaid.line q hq).2
  rw [hline, shapes, List.getElem?_map, (mem_linesOf hl).line, Option.map_some,
    Option.some.injEq] at hshape
  obtain ⟨p, hvalid, htext, hstatement⟩ :=
    parts_of_shape hshape fun name hname => (hlaid.named q hq name hname).2
  exact ⟨q, p, hq, hline, hvalid, htext, hstatement, hshape⟩

theorem dead_cut {sk : Sketch} {l : Line} (h : sk.addressFor l.number = none) (old new : Str) :
    cutLine sk old new l = [.keep l.text] := by
  rw [cutLine, h]

theorem cutLine_before {source : Str} {l : Line} (hl : l ∈ linesOf source) (old new : Str) :
    (cutLine (sketchOf source) old new l).flatMap Piece.before = l.text := by
  cases haddress : (sketchOf source).addressFor l.number with
  | none => rw [dead_cut haddress, List.flatMap_singleton, Piece.before_keep]
  | some address =>
    obtain ⟨q, p, hlive⟩ := live_of_address hl haddress
    rw [hlive.cut, p.pieces_before, hlive.text]

theorem cutSource_before (source old new : Str) :
    (cutSource source old new).flatMap Piece.before = source := by
  have hlines : (linesOf source).map
      (fun l => (cutLine (sketchOf source) old new l).flatMap Piece.before) =
        source.splitOn '\n' := by
    rw [List.map_congr_left fun l hl => cutLine_before hl old new]
    exact numbered_text 0 0 _
  rw [cutSource, together_before, List.map_map]
  exact (congrArg _ hlines).trans (List.intercalate_splitOn '\n')

theorem isEnd_step {sk : Sketch} (h : ∀ p ∈ sk.ended, isEnd p.statement = true) (line : Nat)
    (shape : Shape) : ∀ p ∈ (sk.step line shape).ended, isEnd p.statement = true := by
  have hmoves := sk.step_moves line shape
  generalize sk.step line shape = sk' at hmoves ⊢
  cases hmoves with
  | stays => exact h
  | origin => exact h
  | accepts s address =>
    rw [Sketch.accept_ended]
    split
    · rename_i hend
      intro p hp
      cases hp
      exact hend
    · exact h

theorem isEnd_run {sk : Sketch} (h : ∀ p ∈ sk.ended, isEnd p.statement = true) (line : Nat)
    (rest : List Shape) : ∀ p ∈ (Sketch.run line rest sk).ended, isEnd p.statement = true := by
  apply Sketch.run_invariant (fun sk => ∀ p ∈ sk.ended, isEnd p.statement = true)
  · exact fun _ => isEnd_step
  · exact h

theorem ended_isEnd (source : Str) :
    ∀ p ∈ (sketchOf source).ended, isEnd p.statement = true :=
  have hstart : ∀ p ∈ ({} : Sketch).ended, isEnd p.statement = true := by simp
  isEnd_run hstart 0 _

/-- `END` looks nothing up, and is not `ORG`. -/
theorem isEnd_kind {s : Statement} (h : isEnd s = true) :
    s.looksUp = false ∧ toAsciiLowercase s.mnemonic ≠ "org".toList := by
  have hend : toAsciiLowercase s.mnemonic = "end".toList := by simpa [isEnd] using h
  have hkind : operandOpcode (classify "end".toList) = none := by decide
  rw [Statement.looksUp, hend, hkind]
  exact ⟨rfl, by decide⟩

theorem wordOf_org {labels : Labels} {s : Statement} {word : Word}
    (h : wordOf labels s = .ok word) : toAsciiLowercase s.mnemonic ≠ "org".toList := by
  intro horg
  have hkind : classify "org".toList = .directive .org := by decide
  rw [wordOf, horg, hkind] at h
  cases h

theorem wordOf_looksUp {labels : Labels} {s : Statement} {word : Word} {name : Str}
    (h : wordOf labels s = .ok word) (hlooks : s.looksUp = true) (hname : s.operand = some name) :
    (labels name).isSome = true := by
  rw [Statement.looksUp, hname] at hlooks
  cases hopcode : operandOpcode (classify (toAsciiLowercase s.mnemonic)) with
  | none =>
    rw [hopcode] at hlooks
    cases hlooks
  | some opcode =>
    simp only [hopcode, Bool.and_eq_true, Bool.not_eq_true'] at hlooks
    rw [wordOf_opcode hopcode, hname] at h
    simp only [instructionWord, operandAddress, hlooks, not_true, if_false, Bool.false_eq_true] at h
    cases hlabel : labels name with
    | some address => rfl
    | none =>
      rw [hlabel] at h
      cases h

variable {source old new : Str}

theorem placed_cases {q : Placed} (hq : q ∈ (sketchOf source).statements) :
    q ∈ (sketchOf source).items ∨ isEnd q.statement = true := by
  rcases List.mem_append.mp hq with hq | hq
  · exact .inl hq
  · exact .inr (ended_isEnd source q (Option.mem_toList.mp hq))

theorem Relabels.not_org (h : Relabels source old new) {q : Placed}
    (hq : q ∈ (sketchOf source).statements) :
    toAsciiLowercase q.statement.mnemonic ≠ "org".toList := by
  rcases placed_cases hq with hq | hend
  · obtain ⟨word, hword⟩ := (assemble_outlines source).wordOf_ok h.succeeded hq
    exact wordOf_org hword
  · exact (isEnd_kind hend).2

/-- The names that the renaming touches in a placed statement are labels of the program. -/
theorem Relabels.known (h : Relabels source old new) {q : Placed}
    (hq : q ∈ (sketchOf source).statements) {name : Str}
    (hname : q.statement.label = some name ∨
      q.statement.looksUp = true ∧ q.statement.operand = some name) :
    ((sketchOf source).labels name).isSome = true := by
  rcases hname with hlabel | ⟨hlooks, hoperand⟩
  · rw [((sketchOf_laid source).labels name q.address q.line).mpr ⟨q, hq, hlabel, rfl, rfl⟩]
    rfl
  · rcases placed_cases hq with hq | hend
    · obtain ⟨word, hword⟩ := (assemble_outlines source).wordOf_ok h.succeeded hq
      have haddress := wordOf_looksUp hword hlooks hoperand
      rwa [Sketch.addressOf, Option.isSome_map] at haddress
    · rw [(isEnd_kind hend).1] at hlooks
      cases hlooks

theorem Relabels.replaced_swap (h : Relabels source old new) {name : Str}
    (hname : ((sketchOf source).labels name).isSome = true) :
    replaced old new name = Equiv.swap old new name := by
  rw [replaced, Equiv.swap_apply_def]
  by_cases heq : name = old
  · rw [if_pos heq, if_pos heq]
  · rw [if_neg heq, if_neg heq, if_neg]
    rintro rfl
    rcases h.fresh with hfresh | hfresh
    · exact heq hfresh
    · rw [hfresh] at hname
      cases hname

theorem Relabels.old_named (h : Relabels source old new) : Sketch.WellNamed old := by
  obtain ⟨⟨address, line⟩, hlabel⟩ := Option.isSome_iff_exists.mp h.defined
  obtain ⟨q, hq, hname, -⟩ := ((sketchOf_laid source).labels old address line).mp hlabel
  exact (sketchOf_laid source).named q hq old hname

/-- The renaming of the program that goes with the change of the text. -/
def Relabels.renaming (h : Relabels source old new) : Renaming :=
  .swap old new h.old_named h.name.named

theorem Relabels.rename_statement (h : Relabels source old new) {q : Placed}
    (hq : q ∈ (sketchOf source).statements) :
    q.statement.rename (replaced old new) = q.statement.rename h.renaming.names := by
  have hlabel : q.statement.label.map (replaced old new) =
      q.statement.label.map h.renaming.names := by
    cases hlabel : q.statement.label with
    | none => rfl
    | some name => exact congrArg some (h.replaced_swap (h.known hq (.inl hlabel)))
  have hoperand : q.statement.looksUp = true → q.statement.operand.map (replaced old new) =
      q.statement.operand.map h.renaming.names := by
    intro hlooks
    cases hoperand : q.statement.operand with
    | none => rfl
    | some name => exact congrArg some (h.replaced_swap (h.known hq (.inr ⟨hlooks, hoperand⟩)))
  rw [Statement.rename, Statement.rename, hlabel]
  by_cases hlooks : q.statement.looksUp = true
  · rw [if_pos hlooks, if_pos hlooks, hoperand hlooks]
  · rw [if_neg hlooks, if_neg hlooks]

/-- A renamed line reads as the renamed statement. -/
theorem Relabels.live_shape (h : Relabels source old new) {l : Line} {q : Placed} {p : Parts}
    (hlive : Live (sketchOf source) l q p) :
    shapeOf ((p.pieces old new).flatMap Piece.after) =
      .statement (q.statement.rename h.renaming.names) := by
  have hlabel : p.label = q.statement.label := congrArg Statement.label hlive.statement
  have hvalid : (p.rename (replaced old new)).Valid := by
    refine hlive.valid.rename (fun name hname => ?_) (fun word hword => ?_)
    · rw [replaced]
      split
      · refine ⟨h.name.nonempty, h.name.label, fun c hc => h.name.space c ?_⟩
        exact List.mem_of_mem_head? hc
      · exact hlive.valid.label name hname
    · rw [replaced]
      split
      · exact h.name.word
      · exact hlive.valid.operand hword
  have hspace : ∀ name, (p.rename (replaced old new)).label = some name →
      name.any isWhitespace = false := by
    intro name hname
    obtain ⟨name, hold, rfl⟩ := Option.map_eq_some_iff.mp hname
    rw [replaced]
    split
    · exact h.name.named.2
    · exact ((sketchOf_laid source).named q hlive.placed name (hlabel ▸ hold)).2
  have horg : (p.rename (replaced old new)).body.mnemonic = q.statement.mnemonic :=
    congrArg Statement.mnemonic hlive.statement
  rw [p.pieces_after, hvalid.shapeOf hspace (fun _ => horg ▸ h.not_org hlive.placed),
    p.rename_statement, hlive.statement, h.rename_statement hlive.placed]

/-- What becomes of a line. -/
def relabelled (source old new : Str) (l : Line) : Str :=
  (cutLine (sketchOf source) old new l).flatMap Piece.after

theorem relabelled_dead {l : Line} (hdead : (sketchOf source).addressFor l.number = none) :
    relabelled source old new l = l.text := by
  rw [relabelled, dead_cut hdead, List.flatMap_singleton, Piece.after_keep]

theorem mem_cutLine {l : Line} {piece : Piece Char}
    (h : piece ∈ cutLine (sketchOf source) old new l) :
    (∃ text, piece = .keep text) ∨ piece = .swap old new := by
  rw [cutLine] at h
  split at h
  · exact Parts.mem_pieces h
  · exact .inl ⟨_, List.mem_singleton.mp h⟩

theorem Relabels.relabelled_line (h : Relabels source old new) {l : Line}
    (hl : l ∈ linesOf source) : '\n' ∉ relabelled source old new l := by
  have hold : '\n' ∉ (cutLine (sketchOf source) old new l).flatMap Piece.before := by
    rw [cutLine_before hl]
    exact splitOn_line (List.mem_of_getElem? (mem_linesOf hl).line)
  have hnew : '\n' ∉ new := fun hmem => by
    have := h.name.space _ hmem
    revert this
    decide
  intro hmem
  obtain ⟨piece, hpiece, hmem⟩ := List.mem_flatMap.mp hmem
  rcases mem_cutLine hpiece with ⟨text, rfl⟩ | rfl
  · exact hold (List.mem_flatMap.mpr ⟨_, hpiece, hmem⟩)
  · exact hnew hmem

theorem Relabels.cut_after (h : Relabels source old new) :
    ((cutSource source old new).flatMap Piece.after).splitOn '\n' =
      (linesOf source).map (relabelled source old new) := by
  rw [cutSource, together_after, List.map_map]
  refine List.splitOn_intercalate '\n' (fun line hline => ?_) ?_
  · obtain ⟨l, hl, rfl⟩ := List.mem_map.mp hline
    exact h.relabelled_line hl
  · have hlines : (linesOf source).map Line.text = source.splitOn '\n' := numbered_text 0 0 _
    intro hnil
    rw [List.map_eq_nil_iff] at hnil
    rw [hnil] at hlines
    exact List.splitOn_ne_nil '\n' source hlines.symm

theorem run_codes {sk : Sketch} (h : sk.codes ≠ []) (line : Nat) (rest : List Shape) :
    (Sketch.run line rest sk).codes ≠ [] := by
  obtain ⟨new, hnew, -⟩ := sk.run_reported line rest
  rw [hnew]
  exact List.append_ne_nil_of_left_ne_nil h new

theorem step_addressFor {sk : Sketch} {number : Nat} (h : (sk.addressFor number).isSome = true)
    (line : Nat) (shape : Shape) : ((sk.step line shape).addressFor number).isSome = true := by
  have hmoves := sk.step_moves line shape
  generalize sk.step line shape = sk' at hmoves ⊢
  cases hmoves with
  | stays => exact h
  | origin => exact h
  | accepts s address =>
    rw [Sketch.accept_addressFor, Function.update_apply]
    split
    · rfl
    · exact h

theorem run_addressFor {sk : Sketch} {number : Nat} (h : (sk.addressFor number).isSome = true)
    (line : Nat) (rest : List Shape) :
    ((Sketch.run line rest sk).addressFor number).isSome = true := by
  apply Sketch.run_invariant (fun sk => (sk.addressFor number).isSome = true)
  · exact fun _ => step_addressFor
  · exact h

/-- A statement that the first pass comes to is placed, or there is an error. -/
theorem step_placed {sk : Sketch} (h : sk.stopped = false) (line : Nat) (s : Statement) :
    (sk.step line (.statement s)).codes ≠ [] ∨
      ((sk.step line (.statement s)).addressFor line).isSome = true := by
  rw [Sketch.step_running h]
  simp only [Sketch.stepForm, Sketch.stepStatement]
  split
  · exact .inl (by simp [Sketch.report])
  · split
    · exact .inl (by simp [Sketch.report])
    · refine .inr ?_
      rw [Sketch.accept_addressFor, Function.update_self]
      rfl

/-- The first pass over changed lines, where the changes show on placed statements only. -/
theorem run_changed (r : Renaming) {change : Line → Str} {number base : Nat} {lines : List Str}
    {sk : Sketch}
    (hcodes : (Sketch.run number (lines.map shapeOf) sk).codes = [])
    (hplaced : ∀ l ∈ numbered number base lines,
      ((Sketch.run number (lines.map shapeOf) sk).addressFor l.number).isSome = true →
        shapeOf (change l) = (shapeOf l.text).rename r.names)
    (hother : ∀ l ∈ numbered number base lines,
      (Sketch.run number (lines.map shapeOf) sk).addressFor l.number = none → change l = l.text) :
    Sketch.run number ((numbered number base lines).map fun l => shapeOf (change l)) (r.sketch sk) =
      r.sketch (Sketch.run number (lines.map shapeOf) sk) := by
  induction lines generalizing number base sk with
  | nil => rfl
  | cons text rest ih =>
    have hfirst := List.mem_cons_self (a := (⟨text, number, base⟩ : Line))
      (l := numbered (number + 1) (base + utf8Len text + 1) rest)
    simp only [List.map_cons, Sketch.run] at hcodes hplaced hother
    have hrest := ih hcodes (fun l hl => hplaced l (List.mem_cons_of_mem _ hl))
      fun l hl => hother l (List.mem_cons_of_mem _ hl)
    simp only [numbered, List.map_cons, Sketch.run]
    rw [← hrest]
    congr 1
    cases hstopped : sk.stopped with
    | true =>
      have hsketch : (r.sketch sk).stopped = true := hstopped
      rw [Sketch.step_stopped hstopped, Sketch.step_stopped hsketch]
    | false =>
      rw [← r.step_rename]
      congr 1
      cases haddress : (Sketch.run (number + 1) (rest.map shapeOf)
          (sk.step number (shapeOf text))).addressFor number with
      | some address => exact hplaced ⟨text, number, base⟩ hfirst (by rw [haddress]; rfl)
      | none =>
        rw [hother ⟨text, number, base⟩ hfirst haddress]
        cases hshape : shapeOf text with
        | blank => rfl
        | origin => rfl
        | malformed => rfl
        | statement s =>
          rw [hshape] at hcodes haddress
          rcases step_placed hstopped number s with hstep | hstep
          · exact absurd hcodes (run_codes hstep _ _)
          · have hrun := run_addressFor hstep (number + 1) (rest.map shapeOf)
            rw [haddress] at hrun
            cases hrun

theorem Relabels.sketch (h : Relabels source old new) :
    sketchOf ((cutSource source old new).flatMap Piece.after) =
      h.renaming.sketch (sketchOf source) := by
  have hcodes := ((assemble_outlines source).succeeded.mp h.succeeded).1
  have hempty : h.renaming.sketch {} = {} := rfl
  rw [sketchOf, h.cut_after, List.map_map, ← hempty]
  refine run_changed h.renaming hcodes (fun l hl haddress => ?_) fun l _ hdead => ?_
  · obtain ⟨address, haddress⟩ := Option.isSome_iff_exists.mp haddress
    obtain ⟨q, p, hlive⟩ := live_of_address hl haddress
    rw [relabelled, hlive.cut, h.live_shape hlive, hlive.shape]
    rfl
  · exact relabelled_dead hdead

theorem mem_together {lines : List (List (Piece Char))} {piece : Piece Char}
    (h : piece ∈ together lines) : piece = .keep ['\n'] ∨ ∃ cut ∈ lines, piece ∈ cut := by
  induction lines with
  | nil => cases h
  | cons first rest ih =>
    cases rest with
    | nil => exact .inr ⟨first, by simp, by simpa [together] using h⟩
    | cons second rest =>
      rw [together, List.intercalate_cons_cons, List.append_assoc] at h
      rcases List.mem_append.mp h with h | h
      · exact .inr ⟨first, by simp, h⟩
      · rcases List.mem_cons.mp h with rfl | h
        · exact .inl rfl
        · obtain hnewline | ⟨cut, hcut, hpiece⟩ := ih h
          · exact .inl hnewline
          · exact .inr ⟨cut, List.mem_cons_of_mem _ hcut, hpiece⟩

theorem Relabels.old_nonempty (h : Relabels source old new) : old ≠ [] := by
  have hlaid := sketchOf_laid source
  obtain ⟨⟨address, line⟩, hlabel⟩ := Option.isSome_iff_exists.mp h.defined
  obtain ⟨q, hq, hname, -⟩ := (hlaid.labels old address line).mp hlabel
  have hshape := (hlaid.line q hq).2
  rw [shapes, List.getElem?_map] at hshape
  obtain ⟨text, -, hshape⟩ := Option.map_eq_some_iff.mp hshape
  obtain ⟨p, hvalid, -, hstatement⟩ :=
    parts_of_shape hshape fun name hname => (hlaid.named q hq name hname).2
  exact (hvalid.label old ((congrArg Statement.label hstatement).trans hname)).1

theorem Relabels.proper (h : Relabels source old new) :
    ∀ piece ∈ cutSource source old new, piece.Proper := by
  intro piece hpiece
  rcases mem_together hpiece with rfl | ⟨cut, hcut, hpiece⟩
  · trivial
  · obtain ⟨l, -, rfl⟩ := List.mem_map.mp hcut
    rcases mem_cutLine hpiece with ⟨text, rfl⟩ | rfl
    · trivial
    · exact h.old_nonempty

theorem line_unique {p q : Placed} (hp : p ∈ (sketchOf source).statements)
    (hq : q ∈ (sketchOf source).statements) (hline : p.line = q.line) : p = q := by
  have hlaid := sketchOf_laid source
  have hpaddress := (hlaid.addressFor p.line p.address).mpr ⟨p, hp, rfl, rfl⟩
  have hqaddress := (hlaid.addressFor q.line q.address).mpr ⟨q, hq, rfl, rfl⟩
  rw [hline, hqaddress, Option.some.injEq] at hpaddress
  exact hlaid.unique hp hq hpaddress.symm

/-- The ranges that the parser found in a line are those of its parts. -/
theorem Live.ranges {l : Line} (hl : l ∈ linesOf source) {q : Placed} {p : Parts}
    (hlive : Live (sketchOf source) l q p) {text : Str} {base : Nat} {label : Option (Nat × Nat)}
    {mnemonic : Nat × Nat} {operand comment : Option (Nat × Nat)}
    (hat : StatementAt source text l.number base label mnemonic operand comment) :
    text = p.text ∧ base = l.base ∧ label = p.labelRange ∧ operand = p.operandRange := by
  obtain ⟨rfl, rfl⟩ := hat.line.unique (mem_linesOf hl)
  have hshape := hlive.shape
  rw [shapeOf_ranges hat.ordered (hat.form 0), Ranges.shape, Shape.statement.injEq] at hshape
  have hspace : ∀ r ∈ label, (slice l.text r).any isWhitespace = false := by
    intro r hr
    refine ((sketchOf_laid source).named q hlive.placed (slice l.text r) ?_).2
    rw [← hshape, statementOf, hr, Option.map_some]
  obtain ⟨p', hvalid, htext, hlabel, -, hoperand⟩ :=
    parts_of_statement hat.ordered (hat.form 0) hspace
  have hparts := lexLine_text hvalid
  rw [htext, ← hlive.text, lexLine_text hlive.valid, Option.some.injEq] at hparts
  subst hparts
  exact ⟨htext.symm, rfl, hlabel, hoperand⟩

theorem Live.labelSpans {l : Line} (hl : l ∈ linesOf source) {q : Placed} {p : Parts}
    (hlive : Live (sketchOf source) l q p) {symbol : Symbol}
    (hsymbol : (assemble source).symbols.get old = some symbol) :
    p.labelSpans l.base old =
      ([symbol].filter fun s => s.line = l.number).flatMap fun s => [s.definition] := by
  have houtlines := assemble_outlines source
  obtain ⟨q', hq', hname, -, hline⟩ := symbol_statement houtlines (sketchOf_laid source) hsymbol
  have hlabel : p.label = q.statement.label := congrArg Statement.label hlive.statement
  by_cases hnumber : symbol.line = l.number
  · have hsame := line_unique hq' hlive.placed (by rw [hline, hnumber, hlive.line])
    subst hsame
    obtain ⟨read, hread, rfl⟩ := houtlines.readSymbols old symbol hsymbol
    obtain ⟨text, base, label, mnemonic, operand, comment, hat, -, -, hdefinition, -⟩ := hread
    simp only at hnumber
    rw [hnumber] at hat
    obtain ⟨htext, hbase, hrange, -⟩ := hlive.ranges hl hat
    rw [Parts.labelSpans, hlabel, if_pos hname, ← hrange, ← htext, ← hbase]
    simp [hnumber, hdefinition]
  · have hother : p.label ≠ some old := by
      intro heq
      have hsame := (sketchOf_laid source).labelled hq' hlive.placed hname (hlabel ▸ heq)
      rw [← hline, hsame, hlive.line] at hnumber
      exact hnumber rfl
    rw [Parts.labelSpans, if_neg hother]
    simp [hnumber]

theorem item_spans {l : Line} (hl : l ∈ linesOf source) {p : Parts} {item : Item}
    (hlive : Live (sketchOf source) l (placedOf item) p) (hread : ReadItem source item) :
    uses item old = p.operandSpans l.base old := by
  obtain ⟨hlowercase, hkind⟩ := hread.wellRead
  obtain ⟨text, base, label, mnemonic, operand, comment, hat, -, -, hoperand⟩ := hread
  have hnumber : item.line = l.number := hlive.line
  rw [hnumber] at hat
  obtain ⟨rfl, rfl, -, rfl⟩ := hlive.ranges hl hat
  have hspans : item.operand.map Operand.span = p.operandRange.map (charSpan p.text l.base) := by
    rw [hoperand, Option.map_map]
    rfl
  rw [hlowercase] at hkind
  rw [Parts.operandSpans, hlive.statement, ← hspans, uses, Statement.looksUp]
  simp only [placedOf, ← hkind]
  cases operandOpcode item.mnemonic.kind with
  | none => simp
  | some opcode =>
    cases item.operand with
    | none => simp [operandUses]
    | some found =>
      simp only [operandUses, Option.map_some, Option.some.injEq, Option.toList_some,
        Bool.and_eq_true, Bool.not_eq_true', and_assoc, Bool.not_eq_true]

theorem Live.operandSpans {l : Line} (hl : l ∈ linesOf source) {q : Placed} {p : Parts}
    (hlive : Live (sketchOf source) l q p) :
    p.operandSpans l.base old =
      ((assemble source).program.items.filter fun item => item.line = l.number).flatMap
        (uses · old) := by
  have houtlines := assemble_outlines source
  have hlaid := sketchOf_laid source
  by_cases hitem : ∃ item ∈ (assemble source).program.items, item.line = l.number
  · obtain ⟨item, hitem, hnumber⟩ := hitem
    have hplaced := mem_statements houtlines hitem
    have hsame := line_unique hplaced hlive.placed (by rw [hlive.line, ← hnumber]; rfl)
    have hone := filter_key (List.pairwise_map.mp (item_lines houtlines hlaid)) hitem
    rw [hnumber] at hone
    rw [hone, List.flatMap_singleton]
    exact (item_spans hl (hsame ▸ hlive) (houtlines.readItems item hitem)).symm
  · have hnone : (assemble source).program.items.filter (fun item => item.line = l.number) = [] :=
      List.filter_eq_nil_iff.mpr fun item hmem hline =>
        hitem ⟨item, hmem, by simpa using hline⟩
    have hend : isEnd q.statement = true := by
      rcases placed_cases hlive.placed with hq | hend
      · rw [← houtlines.items] at hq
        obtain ⟨item, hmem, rfl⟩ := List.mem_map.mp hq
        exact absurd ⟨item, hmem, hlive.line⟩ hitem
      · exact hend
    rw [hnone, List.flatMap_nil, Parts.operandSpans, hlive.statement, (isEnd_kind hend).1]
    simp

theorem line_edits {l : Line} (hl : l ∈ linesOf source) {symbol : Symbol}
    (hsymbol : (assemble source).symbols.get old = some symbol) :
    editsOf nextByte l.base (cutLine (sketchOf source) old new l) =
      ((([symbol].filter fun s => s.line = l.number).flatMap fun s => [s.definition]) ++
        ((assemble source).program.items.filter fun item => item.line = l.number).flatMap
          (uses · old)).map (spanEdit new) := by
  have houtlines := assemble_outlines source
  have hlaid := sketchOf_laid source
  cases haddress : (sketchOf source).addressFor l.number with
  | some address =>
    obtain ⟨q, p, hlive⟩ := live_of_address hl haddress
    rw [hlive.cut, p.pieces_edits, hlive.labelSpans hl hsymbol, hlive.operandSpans hl]
  | none =>
    have hdead : ∀ q ∈ (sketchOf source).statements, q.line ≠ l.number := by
      intro q hq hline
      have := (hlaid.addressFor l.number q.address).mpr ⟨q, hq, rfl, hline⟩
      rw [haddress] at this
      cases this
    obtain ⟨q', hq', -, -, hline⟩ := symbol_statement houtlines hlaid hsymbol
    have hsymbolLine : [symbol].filter (fun s => s.line = l.number) = [] := by
      simpa using hline ▸ hdead q' hq'
    have hitems : (assemble source).program.items.filter (fun item => item.line = l.number) = [] :=
      List.filter_eq_nil_iff.mpr fun item hmem => by
        have hline : item.line ≠ l.number := hdead _ (mem_statements houtlines hmem)
        simpa using hline
    rw [dead_cut haddress, hsymbolLine, hitems]
    rfl

/-- The definition and the references of a label are all that the renaming changes. -/
theorem symbol_edits (new : Str) {symbol : Symbol}
    (hsymbol : (assemble source).symbols.get old = some symbol) :
    ((symbol.definition :: symbol.references).map (spanEdit new)).Perm
      (editsOf nextByte 0 (cutSource source old new)) := by
  have houtlines := assemble_outlines source
  have hlaid := sketchOf_laid source
  have hnumbers : (linesOf source).map Line.number =
      List.range' 0 (source.splitOn '\n').length := numbered_number 0 0 _
  have hnodup : ((linesOf source).map Line.number).Nodup := by
    rw [hnumbers]
    exact List.nodup_range'
  have hlength : (shapes source).length = (source.splitOn '\n').length := List.length_map ..
  have hkeys : ∀ q ∈ (sketchOf source).statements, q.line ∈ (linesOf source).map Line.number := by
    intro q hq
    have := (hlaid.line q hq).1
    rw [hnumbers, List.mem_range'_1]
    omega
  obtain ⟨q', hq', -, -, hline⟩ := symbol_statement houtlines hlaid hsymbol
  have hsymbolLine : ∀ s ∈ [symbol], s.line ∈ (linesOf source).map Line.number := by
    intro s hs
    rw [List.mem_singleton.mp hs, ← hline]
    exact hkeys q' hq'
  have hdefinition := flatMap_fibers hnodup Symbol.line hsymbolLine fun s => [s.definition]
  have hreferences := flatMap_fibers hnodup Item.line
    (fun item hmem => hkeys _ (mem_statements houtlines hmem)) (uses · old)
  obtain ⟨read, hread, hsame⟩ := houtlines.readSymbols old symbol hsymbol
  have hrefs : symbol.references = (assemble source).program.items.flatMap (uses · old) := by
    rw [hsame]
  rw [List.flatMap_map] at hdefinition hreferences
  rw [cutSource, linesOf, together_edits fun l hl => cutLine_before hl old new, ← linesOf,
    List.flatMap_congr fun l hl => line_edits hl hsymbol, ← List.map_flatMap, hrefs]
  refine List.Perm.map _ ?_
  refine List.Perm.trans ?_ (List.flatMap_append_perm _ _ _)
  exact (hdefinition.append hreferences).symm

end MarieRs.Asm
