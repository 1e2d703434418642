import Harmony.Runtime.Utf8

set_option autoImplicit false

namespace Harmony

open Utf8

-- The tables of Go's `unicode` package the segmenter consults. What they hold on ASCII is fixed by
-- Unicode; above it they are whatever the Unicode version Go ships says.
structure UnicodeTables where
  letter : Nat → Bool
  mark : Nat → Bool
  number : Nat → Bool
  whiteSpace : Nat → Bool
  letter_ascii : ∀ r < 0x80, letter r = decide ((0x41 ≤ r ∧ r ≤ 0x5A) ∨ (0x61 ≤ r ∧ r ≤ 0x7A))
  mark_ascii : ∀ r < 0x80, mark r = false
  number_ascii : ∀ r < 0x80, number r = decide (0x30 ≤ r ∧ r ≤ 0x39)
  -- U+FFFD, which decoding gives for a bad sequence, is not `White_Space`.
  whiteSpace_runeError : whiteSpace 0xFFFD = false

-- `unicode.IsSpace`: a switch on Latin-1, the `White_Space` table above it.
def isSpace (U : UnicodeTables) (r : Nat) : Bool :=
  if r ≤ 0xFF then [0x09, 0x0A, 0x0B, 0x0C, 0x0D, 0x20, 0x85, 0xA0].contains r else U.whiteSpace r

def isL (U : UnicodeTables) (r : Nat) : Bool := U.letter r || U.mark r

def isN (U : UnicodeTables) (r : Nat) : Bool := U.number r

def isASCIISpace (b : UInt8) : Bool := [0x20, 0x09, 0x0A, 0x0D, 0x0C, 0x0B].contains b

def isASCIILetter (b : UInt8) : Bool := (0x41 ≤ b && b ≤ 0x5A) || (0x61 ≤ b && b ≤ 0x7A)

def isASCIIDigit (b : UInt8) : Bool := 0x30 ≤ b && b ≤ 0x39

-- A segmenter's `Next(s, i)`.
abbrev Segmenter := ByteString → Nat → Nat

namespace Segmenter

-- How a loop of a segmenter reads the rune at `j`: the test it applies and the rune's width. `byte`
-- is the test the ASCII fast path puts on `s[j]`, `rune` the one put on a decoded rune.
abbrev Reader := (UInt8 → Bool) → (Nat → Bool) → ByteString → Nat → Bool × Nat

-- `r, sz := rune(s[j]), 1; if r >= 0x80 { r, sz = utf8DecodeRuneInString(s[j:]) }`
def runeAt (s : ByteString) (j : Nat) : Nat × Nat :=
  if 0x80 ≤ (byteAt s j).toNat then decodeRuneInString (s.drop j) else ((byteAt s j).toNat, 1)

-- `b := s[j]; if b < utf8.RuneSelf { byte(b) } else { r, sz := utf8DecodeRuneInString(s[j:]); rune(r) }`
def fastReader : Reader := fun byte rune s j =>
  if byteAt s j < runeSelf then (byte (byteAt s j), 1)
  else ((rune (decodeRuneInString (s.drop j)).1), (decodeRuneInString (s.drop j)).2)

-- The reference reads every rune, ASCII included, through `rune(s[j])` and the Unicode test.
def slowReader : Reader := fun _ rune s j => (rune (runeAt s j).1, (runeAt s j).2)

-- `for j < len(s) { if !<test at j> { break }; j += <width> }`, at most `fuel` rounds.
def advance (s : ByteString) (read : Nat → Bool × Nat) : Nat → Nat → Nat
  | 0, j => j
  | fuel + 1, j => if j < s.length ∧ (read j).1 then advance s read fuel (j + (read j).2) else j

-- The rule 6 scan: `allWS` stays true unless a rune that is not space is met.
def allSpace (s : ByteString) (read : Nat → Bool × Nat) : Nat → Nat → Bool
  | 0, _ => true
  | fuel + 1, j =>
    if j < s.length then (if (read j).1 then allSpace s read fuel (j + (read j).2) else false)
    else true

-- The rule 3 scan, whose `count` stops it after three digits.
def numbersLoop (s : ByteString) (read : Nat → Bool × Nat) : Nat → Nat → Nat → Nat × Nat
  | 0, j, count => (j, count)
  | fuel + 1, j, count =>
    if j < s.length ∧ (read j).1 ∧ count < 3 then numbersLoop s read fuel (j + (read j).2) (count + 1)
    else (j, count)

def hasCaseInsensitiveSuffixAt (s : ByteString) (i : Nat) (suf : ByteString) : Bool :=
  if i + suf.length > s.length then false
  else (List.range suf.length).all fun k => byteAt s (i + k) ||| 0x20 == byteAt suf k ||| 0x20

def contractionSuffixes : List ByteString := ["s", "t", "re", "ve", "m", "ll", "d"].map ascii

def matchContraction (s : ByteString) (i : Nat) : Nat :=
  if s.length ≤ i ∨ byteAt s i ≠ 0x27 then i
  else match contractionSuffixes.find? (hasCaseInsensitiveSuffixAt s (i + 1)) with
    | some suf => i + 1 + suf.length
    | none => i

-- `if end2 := matchContraction(s, j); end2 > j { j = end2 }; return j`
def withContraction (s : ByteString) (j : Nat) : Nat :=
  if matchContraction s j > j then matchContraction s j else j

section Rules

variable (U : UnicodeTables) (read : Reader) (s : ByteString)

def isPunctByte (b : UInt8) : Bool := !(isASCIISpace b || isASCIILetter b || isASCIIDigit b)

def isPunctRune (r : Nat) : Bool := !(isSpace U r || isL U r || isN U r)

def isBreakOrSlashByte (b : UInt8) : Bool := b == 0x0D || b == 0x0A || b == 0x2F

def isBreakOrSlashRune (r : Nat) : Bool := r == 0x0D || r == 0x0A || r == 0x2F

def isLineBreakByte (b : UInt8) : Bool := b == 0x0D || b == 0x0A

def isLineBreakRune (r : Nat) : Bool := r == 0x0D || r == 0x0A

def isInlineSpaceByte (b : UInt8) : Bool := isASCIISpace b && b != 0x0D && b != 0x0A

def isInlineSpaceRune (r : Nat) : Bool := isSpace U r && r != 0x0D && r != 0x0A

def consumeLetterRunBy (i : Nat) : Nat := advance s (read isASCIILetter (isL U) s) s.length i

def ruleLettersWithContractionBy (i : Nat) : Nat :=
  if consumeLetterRunBy U read s i > i then withContraction s (consumeLetterRunBy U read s i) else i

def ruleLettersWithPrefixAndContractionBy (i : Nat) : Nat :=
  let r := (runeAt s i).1
  if !(!isSpace U r && !isL U r && !isN U r) then ruleLettersWithContractionBy U read s i
  else
    let j := i + (runeAt s i).2
    if consumeLetterRunBy U read s j > j then withContraction s (consumeLetterRunBy U read s j) else i

def ruleNumbersBy (i : Nat) : Nat :=
  let scan := numbersLoop s (read isASCIIDigit (isN U) s) s.length i 0
  if scan.2 > 0 then scan.1 else i

-- `had` is set exactly when the punctuation loop moves, every rune being at least one byte wide.
def rulePunctRunBy (i : Nat) : Nat :=
  let lead := read isASCIISpace (isSpace U) s i
  let j := if i < s.length ∧ lead.1 then i + lead.2 else i
  let k := advance s (read isPunctByte (isPunctRune U) s) s.length j
  if k = j then i
  else
    let tail := read isBreakOrSlashByte isBreakOrSlashRune s k
    if k < s.length ∧ tail.1 then k + tail.2 else k

def ruleNewlinesBy (i : Nat) : Nat :=
  let j := advance s (read isInlineSpaceByte (isInlineSpaceRune U) s) s.length i
  let k := advance s (read isLineBreakByte isLineBreakRune s) s.length j
  if k = j then i else advance s (read isLineBreakByte isLineBreakRune s) s.length k

def ruleWhitespaceBy (i : Nat) : Nat :=
  if advance s (read isASCIISpace (isSpace U) s) s.length i > i then
    advance s (read isASCIISpace (isSpace U) s) s.length i
  else i

-- `Next`: rule 6 first, then rules 1, 2, 3, 4, 5 and 7 in that order, then one byte.
def nextBy (i : Nat) : Nat :=
  if s.length ≤ i then i
  else if allSpace s (read isASCIISpace (isSpace U) s) s.length i then s.length
  else if ruleLettersWithPrefixAndContractionBy U read s i > i then
    ruleLettersWithPrefixAndContractionBy U read s i
  else if ruleLettersWithContractionBy U read s i > i then ruleLettersWithContractionBy U read s i
  else if ruleNumbersBy U read s i > i then ruleNumbersBy U read s i
  else if rulePunctRunBy U read s i > i then rulePunctRunBy U read s i
  else if ruleNewlinesBy U read s i > i then ruleNewlinesBy U read s i
  else if ruleWhitespaceBy U read s i > i then ruleWhitespaceBy U read s i
  else i + 1

end Rules

end Segmenter

open Segmenter

section O200k

variable (U : UnicodeTables) (s : ByteString) (i : Nat)

def consumeLetterRun : Nat := consumeLetterRunBy U fastReader s i

def ruleLettersWithContraction : Nat := ruleLettersWithContractionBy U fastReader s i

def ruleLettersWithPrefixAndContraction : Nat := ruleLettersWithPrefixAndContractionBy U fastReader s i

def ruleNumbers : Nat := ruleNumbersBy U fastReader s i

def rulePunctRun : Nat := rulePunctRunBy U fastReader s i

def ruleNewlines : Nat := ruleNewlinesBy U fastReader s i

def ruleWhitespace : Nat := ruleWhitespaceBy U fastReader s i

-- `o200kSegmenter.Next`
def o200kNext : Segmenter := nextBy U fastReader

def slowConsumeLetterRun : Nat := consumeLetterRunBy U slowReader s i

def slowRuleLettersWithContraction : Nat := ruleLettersWithContractionBy U slowReader s i

def slowRuleLettersWithPrefixAndContraction : Nat :=
  ruleLettersWithPrefixAndContractionBy U slowReader s i

def slowRuleNumbers : Nat := ruleNumbersBy U slowReader s i

def slowRulePunctRun : Nat := rulePunctRunBy U slowReader s i

def slowRuleNewlines : Nat := ruleNewlinesBy U slowReader s i

def slowRuleWhitespace : Nat := ruleWhitespaceBy U slowReader s i

-- `slowSegmenter.Next`, the test suite's reference.
def slowNext : Segmenter := nextBy U slowReader

end O200k

end Harmony
