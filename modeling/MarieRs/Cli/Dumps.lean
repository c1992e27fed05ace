import MarieRs.Asm.LineStarts
import MarieRs.Asm.Printed
import MarieRs.Core.Image
import MarieRs.Lsp.Actions

namespace MarieRs.Asm

/-- The lints of the assembler. -/
def Options.linting : Options := ⟨STANDARD⟩

/-- Returns the span covering a line, excluding its line terminator. -/
def LineIndex.lineSpan (index : LineIndex) (line : Nat) : Option Span :=
  (index.lineStart line).bind fun start => (index.lineEnd line).map fun stop => Span.new start stop

end MarieRs.Asm

namespace MarieRs.Cli

open Asm
open Lsp (parseHex)

/-- `{:04X}` of a word. -/
def hexWord (word : Word) : String := String.ofList (hexPadded 4 word.toNat)

/-- Renders one word as its hexadecimal value and what it decodes to. An instruction does not heed
the width that it is asked to be padded to. -/
def describe (word : Word) : String :=
  match Instruction.decode word with
  | some instruction =>
    hexWord word ++ "  " ++ instruction.display ++ " (" ++ toString word.toInt ++ ")"
  | none => hexWord word ++ "  " ++ "<invalid>     " ++ " (" ++ toString word.toInt ++ ")"

/-- The text of a source line, as it is printed. -/
def lineText (lines : LineIndex) (source : Str) (line : Nat) : Str :=
  trimEnd (((lines.lineSpan line).bind fun span => span.text source).getD [])

/-- Prints `address  word  source`, the shape an assembler listing has always had. -/
def printListing (assembly : Assembly) (source : Str) : List String :=
  assembly.program.items.zipIdx.map fun (item, index) =>
    item.address.display ++ "  " ++ hexWord ((assembly.words[index]?).getD 0) ++ "  " ++
      String.ofList (lineText assembly.lines source item.line)

/-- The flags of `marie asm`. -/
structure AsmArgs where
  listing : Bool
  hex : Bool
  lint : Bool
  output : Bool
  bare : Bool

inductive Assembled where
  | failed (diagnostics : List Diagnostic)
  | doesNotFit
  | wrote (bytes : List Byte)
  | printed (lines : List String)

/-- Assembles the file and prints whatever was asked for. -/
def assembleFile (args : AsmArgs) (source : Str) : Assembled :=
  let assembly := assembleWith source (if args.lint then .linting else .bare)
  if ¬ assembly.succeeded then .failed assembly.diagnostics
  else if args.output then
    if args.bare then .wrote (encodeWords assembly.words)
    else
      match assembly.image with
      | none => .doesNotFit
      | some full => .wrote (encodeImage full)
  else if args.listing then .printed (printListing assembly source)
  else if args.hex then .printed (assembly.words.map hexWord)
  else
    .printed ["assembled " ++ toString assembly.words.length ++ " words at " ++
      assembly.origin.display]

/-- The words up to the last one that is not zero. -/
def untilZeros (words : List Word) : List Word := (words.reverse.dropWhile (· = 0)).reverse

/-- How `marie disasm` ends, with what it printed. -/
inductive Disassembled where
  | unreadable (error : ImageError)
  | empty (words : Nat)
  | listed (lines : List String) (omitted : Nat)
  | overran (lines : List String) (origin : MemoryAddress)

/-- The lines of the words, up to the end of memory. -/
def dumpLines (origin : MemoryAddress) : Nat → List Word → List String
  | _, [] => []
  | offset, word :: words =>
    match MemoryAddress.tryNew ((origin.toNat + offset) % 2 ^ 16) with
    | none => []
    | some address =>
      (address.display ++ "  " ++ describe word) :: dumpLines origin (offset + 1) words

/-- Disassembles the file. -/
def disassemble (bytes : List Byte) (origin : MemoryAddress) (all : Bool) : Disassembled :=
  match decodeWords bytes with
  | .error error => .unreadable error
  | .ok words =>
    let shown := if all then words else untilZeros words
    if shown = [] then .empty words.length
    else
      let lines := dumpLines origin 0 shown
      if lines.length < shown.length then .overran lines origin
      else .listed lines (words.length - shown.length)

/-- The address and the word that a line begins with. -/
def readBack (line : String) : Option (MemoryAddress × Word) :=
  (parseHex (line.toList.take 3)).bind fun address =>
    (parseHex ((line.toList.drop 5).take 4)).bind fun word =>
      (MemoryAddress.tryNew address).map fun address => (address, BitVec.ofNat 16 word)

theorem hexPadded_succ (width n : Nat) :
    hexPadded (width + 1) n = hexDigit (n / 16 ^ width % 16) :: hexPadded width n := by
  simp [hexPadded, List.range_succ]

theorem hexPadded_length (width n : Nat) : (hexPadded width n).length = width := by
  simp [hexPadded]

theorem foldl_hexPadded (width n value : Nat) :
    (hexPadded width n).foldl (fun value c => value * 16 + (toDigit 16 c).getD 0) value =
      value * 16 ^ width + n % 16 ^ width := by
  induction width generalizing value with
  | zero => simp [hexPadded, Nat.mod_one]
  | succ width ih =>
    have hdigit := (hexDigit_facts (n / 16 ^ width % 16) (Nat.mod_lt _ (by decide))).2.2.1
    rw [hexPadded_succ, List.foldl_cons, hdigit, Option.getD_some, ih, Nat.mod_pow_succ]
    ring

/-- What is printed in hexadecimal is read as what it was. -/
theorem parseHex_hexPadded {width n : Nat} (hpos : 0 < width) (hwidth : width ≤ 4)
    (h : n < 16 ^ width) : parseHex (hexPadded width n) = some n := by
  have hdigits : ∀ c ∈ hexPadded width n, ∃ d < 16, c = hexDigit d := by
    intro c hc
    obtain ⟨i, -, rfl⟩ := List.mem_map.mp hc
    exact ⟨_, Nat.mod_lt _ (by decide), rfl⟩
  have hall : (hexPadded width n).all isAsciiHexdigit = true := by
    rw [List.all_eq_true]
    intro c hc
    obtain ⟨d, hd, rfl⟩ := hdigits c hc
    exact (hexDigit_facts d hd).1
  have hsome : (hexPadded width n).all (fun c => (toDigit 16 c).isSome) = true := by
    rw [List.all_eq_true]
    intro c hc
    obtain ⟨d, hd, rfl⟩ := hdigits c hc
    rw [(hexDigit_facts d hd).2.2.1, Option.isSome_some]
  have hne : hexPadded width n ≠ [] := by
    intro hnil
    have hlength := hexPadded_length width n
    rw [hnil, List.length_nil] at hlength
    omega
  have hvalue : ofDigits 16 (hexPadded width n) = n := by
    rw [ofDigits, foldl_hexPadded, Nat.zero_mul, Nat.zero_add, Nat.mod_eq_of_lt h]
  have hmax : n ≤ 2 ^ 16 - 1 := by
    have hle : 16 ^ width ≤ 16 ^ 4 := Nat.pow_le_pow_right (by decide) hwidth
    omega
  rw [Lsp.parseHex_digits hall, fromStrRadix, if_neg (by simp [hne, hsome]), hvalue, if_pos hmax]

theorem readBack_line (address : MemoryAddress) (word : Word) (rest : String) :
    readBack (address.display ++ "  " ++ (hexWord word ++ rest)) = some (address, word) := by
  have hline : (address.display ++ "  " ++ (hexWord word ++ rest)).toList =
      hexPadded 3 address.toNat ++ ([' ', ' '] ++ (hexPadded 4 word.toNat ++ rest.toList)) := by
    simp [MemoryAddress.display, hexWord]
  have haddress : (hexPadded 3 address.toNat).length = 3 := hexPadded_length _ _
  have hword : (hexPadded 4 word.toNat).length = 4 := hexPadded_length _ _
  rw [readBack, hline, List.take_append_of_le_length (by omega), List.take_of_length_le (by omega),
    parseHex_hexPadded (by decide) (by decide) address.isLt, Option.bind_some]
  have hdrop : (hexPadded 3 address.toNat ++
      ([' ', ' '] ++ (hexPadded 4 word.toNat ++ rest.toList))).drop 5 =
        hexPadded 4 word.toNat ++ rest.toList := by
    rw [← List.append_assoc, List.drop_append_of_le_length (by simp [haddress]),
      List.drop_of_length_le (by simp [haddress]), List.nil_append]
  rw [hdrop, List.take_append_of_le_length (by omega), List.take_of_length_le (by omega),
    parseHex_hexPadded (by decide) (by decide) word.isLt, Option.bind_some,
    MemoryAddress.tryNew_eq_some.mpr rfl, Option.map_some, BitVec.ofNat_toNat, BitVec.setWidth_eq]

theorem untilZeros_append (words : List Word) :
    ∃ omitted, words = untilZeros words ++ List.replicate omitted 0 ∧
      (untilZeros words).getLast? ≠ some 0 := by
  refine ⟨(words.reverse.takeWhile (· = 0)).length, ?_, ?_⟩
  · have hzeros : words.reverse.takeWhile (· = 0) =
        List.replicate (words.reverse.takeWhile (· = 0)).length 0 := by
      apply List.eq_replicate_of_mem
      intro word hword
      simpa using List.mem_takeWhile_imp hword
    rw [untilZeros, ← List.reverse_replicate, ← hzeros, ← List.reverse_append,
      List.takeWhile_append_dropWhile, List.reverse_reverse]
  · rw [untilZeros, List.getLast?_reverse]
    intro hhead
    have hnot := List.head?_dropWhile_not (· = (0 : Word)) words.reverse
    rw [hhead] at hnot
    simp at hnot

theorem describe_hexWord (word : Word) : ∃ rest, describe word = hexWord word ++ rest := by
  unfold describe
  split
  · rename_i instruction _
    refine ⟨"  " ++ instruction.display ++ " (" ++ toString word.toInt ++ ")", ?_⟩
    simp only [String.append_assoc]
  · refine ⟨"  " ++ "<invalid>     " ++ " (" ++ toString word.toInt ++ ")", ?_⟩
    simp only [String.append_assoc]

/-- Up to the end of memory, the lines are the words at their addresses. -/
theorem dumpLines_reads (origin : MemoryAddress) (words : List Word) {offset : Nat}
    (hoffset : offset + words.length ≤ MEMORY_WORD_COUNT) :
    (dumpLines origin offset words).map readBack =
      ((words.take (MEMORY_WORD_COUNT - origin.toNat - offset)).zipIdx offset).map
        fun (word, k) => some (BitVec.ofNat 12 (origin.toNat + k), word) := by
  induction words generalizing offset with
  | nil => simp [dumpLines]
  | cons word words ih =>
    rw [List.length_cons] at hoffset
    have horigin := origin.isLt
    have hcount : MEMORY_WORD_COUNT = 4096 := rfl
    have hmod : (origin.toNat + offset) % 2 ^ 16 = origin.toNat + offset := by omega
    rw [dumpLines, hmod]
    by_cases hlt : origin.toNat + offset < MEMORY_WORD_COUNT
    · have hnew : MemoryAddress.tryNew (origin.toNat + offset) =
          some (BitVec.ofNat 12 (origin.toNat + offset)) := if_pos hlt
      obtain ⟨left, hleft⟩ : ∃ left, MEMORY_WORD_COUNT - origin.toNat - offset = left + 1 :=
        ⟨_, (Nat.succ_pred_eq_of_pos (by omega)).symm⟩
      have hrest : MEMORY_WORD_COUNT - origin.toNat - (offset + 1) = left := by omega
      have hleast : offset + 1 + words.length ≤ MEMORY_WORD_COUNT := by omega
      have hih := ih hleast
      rw [hrest] at hih
      obtain ⟨rest, hdescribed⟩ := describe_hexWord word
      simp only [hnew, hdescribed]
      rw [hleft, List.map_cons, readBack_line, hih, List.take_succ_cons, List.zipIdx_cons,
        List.map_cons]
    · have hnone : MemoryAddress.tryNew (origin.toNat + offset) = none :=
        MemoryAddress.tryNew_eq_none.mpr (Nat.le_of_not_lt hlt)
      have hover : MEMORY_WORD_COUNT - origin.toNat - offset = 0 := by omega
      simp only [hnone, hover, List.map_nil, List.take_zero, List.zipIdx_nil]

/-- A dump loses nothing. From the lines of one, with the number of zero words that it says it left
out, come the bytes that it was made of; only words that have no place in memory are not shown. -/
theorem disassemble_reads_back (bytes : List Byte) (origin : MemoryAddress) (all : Bool) :
    match decodeWords bytes with
    | .error error => disassemble bytes origin all = .unreadable error
    | .ok _ => ∃ shown omitted, bytes = encodeWords (shown ++ List.replicate omitted 0) ∧
      (if all then omitted = 0 else shown.getLast? ≠ some 0) ∧
      (shown = [] ∧ disassemble bytes origin all = .empty omitted ∨
        ∃ lines, lines.map readBack =
            ((shown.take (MEMORY_WORD_COUNT - origin.toNat)).zipIdx).map
              (fun (word, k) => some (BitVec.ofNat 12 (origin.toNat + k), word)) ∧
          (origin.toNat + shown.length ≤ MEMORY_WORD_COUNT ∧
              disassemble bytes origin all = .listed lines omitted ∨
            MEMORY_WORD_COUNT < origin.toNat + shown.length ∧
              disassemble bytes origin all = .overran lines origin)) := by
  cases hdecode : decodeWords bytes with
  | error error => simp only [disassemble, hdecode]
  | ok words =>
    obtain ⟨heven, hlength, hpairs⟩ := decodeWords_iff.mp hdecode
    obtain ⟨shown, omitted, hshown, hwords, hends⟩ : ∃ shown omitted,
        shown = (if all then words else untilZeros words) ∧
        words = shown ++ List.replicate omitted 0 ∧
        if all then omitted = 0 else shown.getLast? ≠ some 0 := by
      cases all with
      | true => exact ⟨words, 0, rfl, (List.append_nil words).symm, rfl⟩
      | false =>
        obtain ⟨omitted, hwords, hlast⟩ := untilZeros_append words
        exact ⟨untilZeros words, omitted, rfl, hwords, hlast⟩
    obtain ⟨hbytes, hhalf⟩ := encodeWords_decodePairs bytes heven
    refine ⟨shown, omitted, ?_, hends, ?_⟩
    · rw [← hwords, hpairs, hbytes]
    have hcount : words.length = shown.length + omitted := by
      rw [congrArg List.length hwords, List.length_append, List.length_replicate]
    simp only [disassemble, hdecode, ← hshown]
    by_cases hnone : shown = []
    · refine .inl ⟨hnone, ?_⟩
      rw [if_pos hnone, hcount, hnone, List.length_nil, Nat.zero_add]
    · have hmost : 0 + shown.length ≤ MEMORY_WORD_COUNT := by
        have hsize : IMAGE_BYTES = MEMORY_WORD_COUNT * 2 := rfl
        rw [← hpairs] at hhalf
        omega
      have hreads := dumpLines_reads origin shown hmost
      rw [Nat.sub_zero] at hreads
      have hlines := congrArg List.length hreads
      simp only [List.length_map, List.length_zipIdx, List.length_take] at hlines
      refine .inr ⟨_, hreads, ?_⟩
      rw [if_neg hnone, hcount, Nat.add_sub_cancel_left]
      have horigin := origin.isLt
      have hmemory : MEMORY_WORD_COUNT = 4096 := rfl
      by_cases hfits : origin.toNat + shown.length ≤ MEMORY_WORD_COUNT
      · exact .inl ⟨hfits, if_neg (by omega)⟩
      · exact .inr ⟨by omega, if_pos (by omega)⟩

end MarieRs.Cli
