import MarieRs.Core.Word

namespace MarieRs

abbrev Byte := BitVec 8

abbrev IMAGE_BYTES : Nat := MEMORY_WORD_COUNT * 2

inductive ImageError where
  | oddLength (bytes : Nat)
  | tooLarge (words : Nat)
  | notFullImage (bytes : Nat)
  deriving DecidableEq, Repr

/-- `i16::to_le_bytes`. -/
def toLeBytes (word : Word) : List Byte := [word.extractLsb' 0 8, word.extractLsb' 8 8]

/-- `i16::from_le_bytes`. -/
def fromLeBytes (low high : Byte) : Word := high ++ low

def encodeWords (words : List Word) : List Byte := words.flatMap toLeBytes

/-- The words of a full memory, in order of their addresses. -/
def imageWords (image : MemoryImage) : List Word :=
  (List.range MEMORY_WORD_COUNT).map fun index => image (BitVec.ofNat 12 index)

def encodeImage (image : MemoryImage) : List Byte := encodeWords (imageWords image)

/-- The words in pairs of bytes, without an odd byte at the end. -/
def decodePairs : List Byte → List Word
  | low :: high :: bytes => fromLeBytes low high :: decodePairs bytes
  | _ => []

def decodeWords (bytes : List Byte) : Except ImageError (List Word) :=
  if bytes.length % 2 ≠ 0 then .error (.oddLength bytes.length)
  else if bytes.length / 2 > MEMORY_WORD_COUNT then .error (.tooLarge (bytes.length / 2))
  else .ok (decodePairs bytes)

/-- The memory that words fill from its start. -/
def imageOf (words : List Word) : MemoryImage := fun address => (words[address.index]?).getD 0

def decodeImage (bytes : List Byte) : Except ImageError MemoryImage :=
  if bytes.length ≠ IMAGE_BYTES then .error (.notFullImage bytes.length)
  else (decodeWords bytes).map imageOf

def isFullImage (bytes : List Byte) : Bool := bytes.length == IMAGE_BYTES

example : encodeWords [0x1004] = [0x04, 0x10] := by decide

theorem fromLeBytes_toLeBytes (word : Word) :
    fromLeBytes (word.extractLsb' 0 8) (word.extractLsb' 8 8) = word := by
  apply BitVec.eq_of_getLsbD_eq
  intro i hi
  rw [fromLeBytes, BitVec.getLsbD_append, BitVec.getLsbD_extractLsb', BitVec.getLsbD_extractLsb']
  by_cases hlow : i < 8
  · simp [hlow]
  · have hhigh : i - 8 < 8 := by omega
    have hsum : 8 + (i - 8) = i := by omega
    simp [hlow, hhigh, hsum]

theorem encodeWords_length (words : List Word) :
    (encodeWords words).length = words.length * 2 := by
  induction words with
  | nil => rfl
  | cons word words ih =>
    rw [encodeWords, List.flatMap_cons, List.length_append, ← encodeWords, ih, List.length_cons]
    simp only [toLeBytes, List.length_cons, List.length_nil]
    omega

theorem decodePairs_encodeWords (words : List Word) : decodePairs (encodeWords words) = words := by
  induction words with
  | nil => rfl
  | cons word words ih =>
    change fromLeBytes _ _ :: decodePairs (encodeWords words) = _
    rw [ih, fromLeBytes_toLeBytes]

/-- Words that memory has room for survive the format. -/
theorem decodeWords_encodeWords {words : List Word} (h : words.length ≤ MEMORY_WORD_COUNT) :
    decodeWords (encodeWords words) = .ok words := by
  rw [decodeWords, encodeWords_length, if_neg (by omega), if_neg (by omega),
    decodePairs_encodeWords]

theorem imageWords_length (image : MemoryImage) :
    (imageWords image).length = MEMORY_WORD_COUNT := by
  rw [imageWords, List.length_map, List.length_range]

theorem imageOf_imageWords (image : MemoryImage) : imageOf (imageWords image) = image := by
  funext address
  have hlt : address.index < MEMORY_WORD_COUNT := address.isLt
  rw [imageOf, imageWords, List.getElem?_map, List.getElem?_range hlt, Option.map_some,
    Option.getD_some, MemoryAddress.index, BitVec.ofNat_toNat, BitVec.setWidth_eq]

/-- A full memory survives the format. -/
theorem decodeImage_encodeImage (image : MemoryImage) :
    decodeImage (encodeImage image) = .ok image := by
  have hlength := imageWords_length image
  rw [decodeImage, encodeImage, encodeWords_length, hlength, if_neg (by simp),
    decodeWords_encodeWords hlength.le, Except.map, imageOf_imageWords]

theorem toLeBytes_fromLeBytes (low high : Byte) :
    toLeBytes (fromLeBytes low high) = [low, high] := by
  have hlow : (fromLeBytes low high).extractLsb' 0 8 = low := by
    apply BitVec.eq_of_getLsbD_eq
    intro i hi
    rw [BitVec.getLsbD_extractLsb', fromLeBytes, BitVec.getLsbD_append, Nat.zero_add, if_pos hi,
      decide_eq_true hi, Bool.true_and]
  have hhigh : (fromLeBytes low high).extractLsb' 8 8 = high := by
    apply BitVec.eq_of_getLsbD_eq
    intro i hi
    have hnot : ¬8 + i < 8 := by omega
    rw [BitVec.getLsbD_extractLsb', fromLeBytes, BitVec.getLsbD_append, if_neg hnot,
      Nat.add_sub_cancel_left, decide_eq_true hi, Bool.true_and]
  rw [toLeBytes, hlow, hhigh]

theorem encodeWords_decodePairs (bytes : List Byte) (heven : bytes.length % 2 = 0) :
    encodeWords (decodePairs bytes) = bytes ∧ (decodePairs bytes).length = bytes.length / 2 := by
  induction bytes using decodePairs.induct with
  | case1 low high bytes ih =>
    have hrest : bytes.length % 2 = 0 := by
      simp only [List.length_cons] at heven
      omega
    obtain ⟨hencode, hlength⟩ := ih hrest
    refine ⟨?_, ?_⟩
    · change toLeBytes (fromLeBytes low high) ++ encodeWords (decodePairs bytes) = _
      rw [toLeBytes_fromLeBytes, hencode]
      rfl
    · rw [decodePairs, List.length_cons, hlength]
      simp only [List.length_cons]
      omega
  | case2 bytes hnot =>
    cases bytes with
    | nil => exact ⟨rfl, rfl⟩
    | cons low rest =>
      cases rest with
      | nil => cases heven
      | cons high rest => exact absurd rfl (hnot low high rest)

theorem decodeWords_iff {bytes : List Byte} {words : List Word} :
    decodeWords bytes = .ok words ↔
      bytes.length % 2 = 0 ∧ bytes.length ≤ IMAGE_BYTES ∧ words = decodePairs bytes := by
  rw [decodeWords]
  split
  · rename_i hodd
    exact iff_of_false (by simp) fun h => hodd h.1
  · rename_i heven
    rw [not_not] at heven
    split
    · rename_i hlarge
      refine iff_of_false (by simp) fun h => ?_
      have hsize : IMAGE_BYTES = MEMORY_WORD_COUNT * 2 := rfl
      omega
    · rename_i hfits
      have hsize : IMAGE_BYTES = MEMORY_WORD_COUNT * 2 := rfl
      rw [Except.ok.injEq]
      exact ⟨fun h => ⟨heven, by omega, h.symm⟩, fun h => h.2.2.symm⟩

theorem imageWords_imageOf {words : List Word} (h : words.length = MEMORY_WORD_COUNT) :
    imageWords (imageOf words) = words := by
  apply List.ext_getElem
  · rw [imageWords_length, h]
  · intro i hi hwords
    have hindex : MemoryAddress.index (BitVec.ofNat 12 i) = i := by
      rw [MemoryAddress.index, BitVec.toNat_ofNat]
      apply Nat.mod_eq_of_lt
      rw [h] at hwords
      exact hwords
    simp only [imageWords, List.getElem_map, List.getElem_range, imageOf, hindex]
    rw [List.getElem?_eq_getElem hwords, Option.getD_some]

theorem image_even : IMAGE_BYTES % 2 = 0 := rfl

theorem image_half : IMAGE_BYTES / 2 = MEMORY_WORD_COUNT := rfl

theorem decodeImage_iff {bytes : List Byte} {image : MemoryImage} :
    decodeImage bytes = .ok image ↔
      bytes.length = IMAGE_BYTES ∧ image = imageOf (decodePairs bytes) := by
  rw [decodeImage]
  split
  · rename_i hlength
    exact iff_of_false (by simp) fun h => hlength h.1
  · rename_i hlength
    rw [not_not] at hlength
    have hwords : decodeWords bytes = .ok (decodePairs bytes) :=
      decodeWords_iff.mpr ⟨hlength ▸ image_even, hlength.le, rfl⟩
    rw [hwords, Except.map, Except.ok.injEq]
    exact ⟨fun h => ⟨hlength, h.symm⟩, fun h => h.2.symm⟩

/-- The format is a bijection between words and bytes, and between memories and full images. -/
theorem codec_bijective :
    (∀ words, words.length ≤ MEMORY_WORD_COUNT → decodeWords (encodeWords words) = .ok words) ∧
    (∀ bytes, (∃ words, decodeWords bytes = .ok words) ↔
      bytes.length % 2 = 0 ∧ bytes.length ≤ 8192) ∧
    (∀ bytes words, decodeWords bytes = .ok words → encodeWords words = bytes) ∧
    (∀ image, decodeImage (encodeImage image) = .ok image) ∧
    (∀ bytes, (∃ image, decodeImage bytes = .ok image) ↔ bytes.length = 8192) ∧
    (∀ bytes image, decodeImage bytes = .ok image → encodeImage image = bytes) ∧
    ∀ bytes image, decodeImage bytes = .ok image → ∃ words, decodeWords bytes = .ok words ∧
      words.length = MEMORY_WORD_COUNT ∧
      ∀ address : MemoryAddress, words[address.index]? = some (image address) := by
  refine ⟨fun _ => decodeWords_encodeWords, fun bytes => ?_, fun bytes words h => ?_,
    decodeImage_encodeImage, fun bytes => ?_, fun bytes image h => ?_, fun bytes image h => ?_⟩
  · constructor
    · rintro ⟨words, h⟩
      obtain ⟨heven, hfits, -⟩ := decodeWords_iff.mp h
      exact ⟨heven, hfits⟩
    · rintro ⟨heven, hfits⟩
      exact ⟨_, decodeWords_iff.mpr ⟨heven, hfits, rfl⟩⟩
  · obtain ⟨heven, -, rfl⟩ := decodeWords_iff.mp h
    exact (encodeWords_decodePairs bytes heven).1
  · constructor
    · rintro ⟨image, h⟩
      exact (decodeImage_iff.mp h).1
    · intro hlength
      exact ⟨_, decodeImage_iff.mpr ⟨hlength, rfl⟩⟩
  · obtain ⟨hlength, rfl⟩ := decodeImage_iff.mp h
    obtain ⟨hencode, hwords⟩ := encodeWords_decodePairs bytes (hlength ▸ image_even)
    rw [encodeImage, imageWords_imageOf (by rw [hwords, hlength, image_half]), hencode]
  · obtain ⟨hlength, rfl⟩ := decodeImage_iff.mp h
    obtain ⟨-, hwords⟩ := encodeWords_decodePairs bytes (hlength ▸ image_even)
    rw [hlength, image_half] at hwords
    refine ⟨_, decodeWords_iff.mpr ⟨hlength ▸ image_even, hlength.le, rfl⟩, hwords, fun address => ?_⟩
    have hlt : address.index < (decodePairs bytes).length := hwords ▸ address.isLt
    rw [imageOf, List.getElem?_eq_getElem hlt, Option.getD_some]

end MarieRs
