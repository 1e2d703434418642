import Harmony.Tokenizer.Segmenter

set_option autoImplicit false

namespace Harmony.Segmenter

open Utf8

variable (U : UnicodeTables)

theorem byte_small {b : UInt8} (small : b < runeSelf) : b.toNat < 0x80 := small

theorem byte_beq (a b : UInt8) : (a == b) = (a.toNat == b.toNat) := by
  rw [Bool.eq_iff_iff]
  simp [byte_eq_iff]

theorem isSpace_latin1 {r : Nat} (latin1 : r ≤ 0xFF) :
    isSpace U r = [0x09, 0x0A, 0x0B, 0x0C, 0x0D, 0x20, 0x85, 0xA0].contains r := by
  simp [isSpace, latin1]

theorem fastReader_eq_slowReader {byte : UInt8 → Bool} {rune : Nat → Bool}
    (agree : ∀ b : UInt8, b < runeSelf → byte b = rune b.toNat) :
    fastReader byte rune = slowReader byte rune := by
  funext s j
  by_cases small : byteAt s j < runeSelf
  · have ascii : ¬ 0x80 ≤ (byteAt s j).toNat := by have := byte_small small; omega
    simp [fastReader, slowReader, runeAt, small, ascii, agree _ small]
  · have wide : 0x80 ≤ (byteAt s j).toNat := by
      simpa [runeSelf, byte_lt_iff] using small
    simp [fastReader, slowReader, runeAt, small, wide]

theorem isASCIISpace_agree (b : UInt8) (small : b < runeSelf) :
    isASCIISpace b = isSpace U b.toNat := by
  have range := byte_small small
  rw [isSpace_latin1 U (by omega)]
  simp only [isASCIISpace, List.contains, List.elem, byte_beq, UInt8.toNat_ofNat, UInt8.size]
  generalize b.toNat = n at range ⊢
  revert n
  decide

theorem isASCIILetter_agree (b : UInt8) (small : b < runeSelf) :
    isASCIILetter b = isL U b.toNat := by
  have range := byte_small small
  simp only [isASCIILetter, isL, U.letter_ascii _ range, U.mark_ascii _ range, Bool.or_false,
    byte_le_iff, UInt8.toNat_ofNat, UInt8.size]
  simp

theorem isASCIIDigit_agree (b : UInt8) (small : b < runeSelf) :
    isASCIIDigit b = isN U b.toNat := by
  have range := byte_small small
  simp only [isASCIIDigit, isN, U.number_ascii _ range, byte_le_iff, UInt8.toNat_ofNat, UInt8.size]
  simp

theorem isPunct_agree (b : UInt8) (small : b < runeSelf) :
    isPunctByte b = isPunctRune U b.toNat := by
  simp only [isPunctByte, isPunctRune, isASCIISpace_agree U b small, isASCIILetter_agree U b small,
    isASCIIDigit_agree U b small]

theorem isBreakOrSlash_agree (b : UInt8) (_ : b < runeSelf) :
    isBreakOrSlashByte b = isBreakOrSlashRune b.toNat := by
  simp only [isBreakOrSlashByte, isBreakOrSlashRune, byte_beq, UInt8.toNat_ofNat, UInt8.size]

theorem isLineBreak_agree (b : UInt8) (_ : b < runeSelf) :
    isLineBreakByte b = isLineBreakRune b.toNat := by
  simp only [isLineBreakByte, isLineBreakRune, byte_beq, UInt8.toNat_ofNat, UInt8.size]

theorem isInlineSpace_agree (b : UInt8) (small : b < runeSelf) :
    isInlineSpaceByte b = isInlineSpaceRune U b.toNat := by
  simp only [isInlineSpaceByte, isInlineSpaceRune, isASCIISpace_agree U b small, bne, byte_beq,
    UInt8.toNat_ofNat, UInt8.size]

theorem o200kNext_eq_slowNext (s : ByteString) (i : Nat) : o200kNext U s i = slowNext U s i := by
  simp only [o200kNext, slowNext, nextBy, ruleLettersWithPrefixAndContractionBy,
    ruleLettersWithContractionBy, consumeLetterRunBy, ruleNumbersBy, rulePunctRunBy, ruleNewlinesBy,
    ruleWhitespaceBy, fastReader_eq_slowReader (isASCIISpace_agree U),
    fastReader_eq_slowReader (isASCIILetter_agree U), fastReader_eq_slowReader (isASCIIDigit_agree U),
    fastReader_eq_slowReader (isPunct_agree U), fastReader_eq_slowReader isBreakOrSlash_agree,
    fastReader_eq_slowReader isLineBreak_agree, fastReader_eq_slowReader (isInlineSpace_agree U)]

-- A reader that never reads past the end of `s` and always moves.
def Reader.Sound (read : Reader) : Prop :=
  ∀ byte rune s j, j < List.length s →
    1 ≤ (read byte rune s j).2 ∧ j + (read byte rune s j).2 ≤ List.length s

theorem runeAt_width {s : ByteString} {j : Nat} (inside : j < s.length) :
    1 ≤ (runeAt s j).2 ∧ j + (runeAt s j).2 ≤ s.length := by
  unfold runeAt
  split
  · rw [byteAt_eq_head s j inside]
    have size := decodeRuneInString_size (byteAt s j) (s.drop (j + 1))
    simp only [List.length_drop] at size
    omega
  · simp only [le_refl, true_and]
    omega

theorem fastReader_sound : fastReader.Sound := by
  intro _ _ s j inside
  simp only [fastReader]
  split
  · simp only [le_refl, true_and]
    omega
  · rw [byteAt_eq_head s j inside]
    have size := decodeRuneInString_size (byteAt s j) (s.drop (j + 1))
    simp only [List.length_drop] at size
    omega

section Bounds

variable {s : ByteString} {read' : Nat → Bool × Nat}

theorem advance_le (sound : ∀ j < s.length, j + (read' j).2 ≤ s.length) (fuel : Nat) {j : Nat}
    (start : j ≤ s.length) : advance s read' fuel j ≤ s.length := by
  induction fuel generalizing j with
  | zero => exact start
  | succ fuel ih =>
    simp only [advance]
    split
    · next moving => exact ih (sound j moving.1)
    · exact start

theorem numbersLoop_le (sound : ∀ j < s.length, j + (read' j).2 ≤ s.length) (fuel : Nat)
    {j : Nat} (count : Nat) (start : j ≤ s.length) : (numbersLoop s read' fuel j count).1 ≤ s.length := by
  induction fuel generalizing j count with
  | zero => exact start
  | succ fuel ih =>
    simp only [numbersLoop]
    split
    · next moving => exact ih _ (sound j moving.1)
    · exact start

theorem matchContraction_le (j : Nat) (start : j ≤ s.length) : matchContraction s j ≤ s.length := by
  unfold matchContraction
  split
  · exact start
  · split
    · next suf found =>
      have fits := List.find?_some found
      simp only [hasCaseInsensitiveSuffixAt] at fits
      split at fits
      · cases fits
      · omega
    · exact start

theorem withContraction_le (j : Nat) (start : j ≤ s.length) : withContraction s j ≤ s.length := by
  unfold withContraction
  split
  · exact matchContraction_le j start
  · exact start

end Bounds

section Rules

variable (read : Reader) (sound : read.Sound) (s : ByteString)
include sound

theorem reads_within (byte : UInt8 → Bool) (rune : Nat → Bool) :
    ∀ j < s.length, j + (read byte rune s j).2 ≤ s.length :=
  fun j inside => (sound byte rune s j inside).2

theorem consumeLetterRunBy_le {i : Nat} (start : i ≤ s.length) :
    consumeLetterRunBy U read s i ≤ s.length :=
  advance_le (reads_within read sound s _ _) _ start

theorem ruleLettersWithContractionBy_le {i : Nat} (start : i ≤ s.length) :
    ruleLettersWithContractionBy U read s i ≤ s.length := by
  unfold ruleLettersWithContractionBy
  split
  · exact withContraction_le _ (consumeLetterRunBy_le U read sound s start)
  · exact start

theorem ruleLettersWithPrefixAndContractionBy_le {i : Nat} (inside : i < s.length) :
    ruleLettersWithPrefixAndContractionBy U read s i ≤ s.length := by
  unfold ruleLettersWithPrefixAndContractionBy
  dsimp only
  split
  · exact ruleLettersWithContractionBy_le U read sound s inside.le
  · split
    · exact withContraction_le _
        (consumeLetterRunBy_le U read sound s (runeAt_width inside).2)
    · exact inside.le

theorem ruleNumbersBy_le {i : Nat} (start : i ≤ s.length) : ruleNumbersBy U read s i ≤ s.length := by
  unfold ruleNumbersBy
  dsimp only
  split
  · exact numbersLoop_le (reads_within read sound s _ _) _ _ start
  · exact start

theorem rulePunctRunBy_le {i : Nat} (start : i ≤ s.length) : rulePunctRunBy U read s i ≤ s.length := by
  unfold rulePunctRunBy
  dsimp only
  have lead : (if i < s.length ∧ (read isASCIISpace (isSpace U) s i).1 then
      i + (read isASCIISpace (isSpace U) s i).2 else i) ≤ s.length := by
    split
    · next moving => exact reads_within read sound s _ _ i moving.1
    · exact start
  generalize (if i < s.length ∧ (read isASCIISpace (isSpace U) s i).1 then
      i + (read isASCIISpace (isSpace U) s i).2 else i) = j at lead ⊢
  have run := advance_le (reads_within read sound s isPunctByte (isPunctRune U)) s.length lead
  generalize advance s (read isPunctByte (isPunctRune U) s) s.length j = k at run ⊢
  have tail := reads_within read sound s isBreakOrSlashByte isBreakOrSlashRune k
  split_ifs with moved moving
  · exact start
  · exact tail moving.1
  · exact run

theorem ruleNewlinesBy_le {i : Nat} (start : i ≤ s.length) : ruleNewlinesBy U read s i ≤ s.length := by
  unfold ruleNewlinesBy
  dsimp only
  have spaces := advance_le (reads_within read sound s isInlineSpaceByte (isInlineSpaceRune U))
    s.length start
  have breaks := advance_le (reads_within read sound s isLineBreakByte isLineBreakRune) s.length spaces
  split
  · exact start
  · exact advance_le (reads_within read sound s _ _) s.length breaks

theorem ruleWhitespaceBy_le {i : Nat} (start : i ≤ s.length) :
    ruleWhitespaceBy U read s i ≤ s.length := by
  unfold ruleWhitespaceBy
  split
  · exact advance_le (reads_within read sound s _ _) s.length start
  · exact start

theorem nextBy_bounds {i : Nat} (inside : i < s.length) :
    i < nextBy U read s i ∧ nextBy U read s i ≤ s.length := by
  have rule1 := ruleLettersWithPrefixAndContractionBy_le U read sound s inside
  have rule2 := ruleLettersWithContractionBy_le U read sound s inside.le
  have rule3 := ruleNumbersBy_le U read sound s inside.le
  have rule4 := rulePunctRunBy_le U read sound s inside.le
  have rule5 := ruleNewlinesBy_le U read sound s inside.le
  have rule7 := ruleWhitespaceBy_le U read sound s inside.le
  unfold nextBy
  split_ifs <;> omega

end Rules

theorem o200kNext_bounds (s : ByteString) {i : Nat} (inside : i < s.length) :
    i < o200kNext U s i ∧ o200kNext U s i ≤ s.length :=
  nextBy_bounds U fastReader fastReader_sound s inside

end Harmony.Segmenter
