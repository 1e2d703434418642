import Harmony.Runtime.Utf8
import Harmony.Tokenizer.Segmenter

set_option autoImplicit false

namespace Harmony

open Utf8

namespace Utf8

-- `utf8.RuneStart`: a byte that is not a continuation byte.
def runeStart (b : UInt8) : Bool := b.toNat < 0x80 || 0xC0 ≤ b.toNat

-- Where `DecodeLastRuneInString` starts decoding: the last `RuneStart` byte among the three before
-- the last one, and otherwise one before the window (or 0).
def lastRuneStart (s : ByteString) : Nat :=
  let lim := s.length - 4
  match ((List.range' lim (s.length - 1 - lim)).reverse.find? fun j => runeStart (byteAt s j)) with
  | some p => p
  | none => lim - 1

def decodeLastRuneInString (s : ByteString) : Nat × Nat :=
  if s.length = 0 then (runeError, 0)
  else if byteAt s (s.length - 1) < runeSelf then ((byteAt s (s.length - 1)).toNat, 1)
  else
    let start := lastRuneStart s
    let rs := decodeRuneInString (s.drop start)
    if start + rs.2 ≠ s.length then (runeError, 1) else rs

end Utf8

namespace Strings

def hasPrefix (s pre : ByteString) : Bool := pre.isPrefixOf s

-- `strings.Index`, with `none` for -1.
def index : ByteString → ByteString → Option Nat
  | [], sub => if sub = [] then some 0 else none
  | c :: rest, sub => if sub.isPrefixOf (c :: rest) then some 0 else (index rest sub).map (· + 1)

def contains (s sub : ByteString) : Bool := (index s sub).isSome

-- `strings.IndexByte`, with `none` for -1.
def indexByte (s : ByteString) (c : UInt8) : Option Nat := s.findIdx? (· == c)

-- `strings.ReplaceAll(s, old, new)` for a non-empty `old`, at most `fuel` steps.
def replaceAllFrom (old new : ByteString) : Nat → ByteString → ByteString
  | 0, s => s
  | _ + 1, [] => []
  | fuel + 1, c :: rest =>
    if old.isPrefixOf (c :: rest) then new ++ replaceAllFrom old new fuel (rest.drop (old.length - 1))
    else c :: replaceAllFrom old new fuel rest

def replaceAll (s old new : ByteString) : ByteString := replaceAllFrom old new s.length s

-- `for i, r := range s[from:] { if stop(r) { return i } }`: the offset of the first rune `stop` takes.
def indexRuneFrom (stop : Nat → Bool) (s : ByteString) : Nat → Nat → Option Nat
  | 0, _ => none
  | fuel + 1, i =>
    if s.length ≤ i then none
    else if stop (decodeRuneInString (s.drop i)).1 then some i
    else indexRuneFrom stop s fuel (i + (decodeRuneInString (s.drop i)).2)

def indexRune (stop : Nat → Bool) (s : ByteString) : Option Nat := indexRuneFrom stop s s.length 0

-- `lastIndexFunc(s[:i], f, false)`, reading runes backwards from `i`.
def lastIndexNotFrom (f : Nat → Bool) (s : ByteString) : Nat → Nat → Option Nat
  | 0, _ => none
  | fuel + 1, i =>
    if i = 0 then none
    else if f (decodeLastRuneInString (s.take i)).1 = false then some (i - (decodeLastRuneInString (s.take i)).2)
    else lastIndexNotFrom f s fuel (i - (decodeLastRuneInString (s.take i)).2)

def trimLeftFunc (f : Nat → Bool) (s : ByteString) : ByteString :=
  match indexRune (fun r => !f r) s with
  | some i => s.drop i
  | none => []

-- `strings.TrimRightFunc`: the last rune `f` rejects is re-read forwards to find where it ends.
def trimRightFunc (f : Nat → Bool) (s : ByteString) : ByteString :=
  match lastIndexNotFrom f s s.length s.length with
  | some i => if runeSelf ≤ byteAt s i then s.take (i + (decodeRuneInString (s.drop i)).2) else s.take (i + 1)
  | none => []

-- `strings.TrimSpace`. Its ASCII loops test the same six bytes `unicode.IsSpace` takes below
-- `RuneSelf`, so it is `TrimFunc(s, unicode.IsSpace)`.
def trimSpace (U : UnicodeTables) (s : ByteString) : ByteString := trimRightFunc (isSpace U) (trimLeftFunc (isSpace U) s)

end Strings

end Harmony
