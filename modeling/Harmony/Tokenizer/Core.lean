import Harmony.Runtime.Maps
import Harmony.Tokenizer.Segmenter
import Harmony.Tokenizer.Merge

set_option autoImplicit false

namespace Harmony

-- The fields of `coreBPE` that encoding and decoding read; the two pools only recycle buffers.
structure CoreBPE where
  enc : ByteString → Option Rank
  dec : Rank → Option ByteString
  specialEnc : GoMap ByteString Rank
  specialDec : Rank → Option ByteString
  seg : Segmenter

-- `newCoreBPE` over typed pairs. `dec` is the default heap store, where the first pair of an id wins;
-- its constructor never fails, so neither does this one.
def newCoreBPE (encoderPairs : List (ByteString × Rank)) (specials : GoMap ByteString Rank)
    (seg : Segmenter) : CoreBPE where
  enc := assignLast encoderPairs Prod.fst Prod.snd
  dec := assignFirst encoderPairs Prod.snd Prod.fst
  specialEnc := specials
  specialDec := assignLast specials.entries Prod.snd Prod.fst
  seg := seg

namespace CoreBPE

variable (b : CoreBPE)

-- One round of `matchSpecialAt`'s loop over `specialEnc`, with `(id, maxLen)` so far.
def matchSpecialStep (s : ByteString) (i : Nat) (allowed : List ByteString) (acc : Rank × Nat)
    (e : ByteString × Rank) : Rank × Nat :=
  if e.1 ∉ allowed then acc
  else if e.1.length > s.length - i then acc
  else if slice s i (i + e.1.length) = e.1 ∧ e.1.length > acc.2 then (e.2, e.1.length)
  else acc

-- The longest allowed special literal at `i`, as `(id, len)`, or `(0, 0)`.
def matchSpecialAt (s : ByteString) (i : Nat) (allowed : List ByteString) : Rank × Nat :=
  let best := b.specialEnc.entries.foldl (matchSpecialStep s i allowed) (0, 0)
  if best.2 = 0 then (0, 0) else best

-- The tokens of one segment: its own rank, or its byte-pair encoding. `lastPieceLen` is their count.
def encodePiece (piece : ByteString) : List Rank :=
  match b.enc piece with
  | some id => [id]
  | none => bytePairEncode b.enc piece

-- The loop `Encode` and `encodeInto` share: from byte `i`, with `out` emitted so far, at most `fuel`
-- rounds. Every round consumes at least one byte.
def encodeLoop (text : ByteString) (allowed : List ByteString) :
    Nat → Nat → List Rank → Nat → List Rank × Nat
  | 0, _, out, lastPieceLen => (out, lastPieceLen)
  | fuel + 1, i, out, lastPieceLen =>
    if text.length ≤ i then (out, lastPieceLen)
    else if 0 < allowed.length ∧ 0 < (b.matchSpecialAt text i allowed).2 then
      encodeLoop text allowed fuel (i + (b.matchSpecialAt text i allowed).2)
        (out ++ [(b.matchSpecialAt text i allowed).1]) 0
    else
      let stop := if b.seg text i ≤ i then i + 1 else b.seg text i
      let toks := b.encodePiece (slice text i stop)
      encodeLoop text allowed fuel stop (out ++ toks) toks.length

def encode (text : ByteString) (allowed : List ByteString) : List Rank × Nat :=
  b.encodeLoop text allowed text.length 0 [] 0

-- `encodeInto(text, allowed, out)`: the new `*out`, and `lastPieceLen`.
def encodeInto (text : ByteString) (allowed : List ByteString) (out : List Rank) : List Rank × Nat :=
  b.encodeLoop text allowed text.length 0 out 0

def encodeOrdinary (text : ByteString) : List Rank := (b.encode text []).1

def encodeIntoOrdinary (text : ByteString) (out : List Rank) : List Rank := (b.encodeInto text [] out).1

def encodeWithSpecialTokens (text : ByteString) : List Rank := (b.encode text b.specialEnc.keys).1

def encodeWithSpecialTokensInto (text : ByteString) (out : List Rank) : List Rank :=
  (b.encodeInto text b.specialEnc.keys out).1

-- `DecodeBytesInto`: the new `*dst`; on an error `*dst` is left as it was.
def decodeBytesInto (dst : ByteString) : List Rank → Except ByteString ByteString
  | [] => .ok dst
  | t :: ts =>
    match b.dec t with
    | some bs => decodeBytesInto (dst ++ bs) ts
    | none =>
      match b.specialDec t with
      | some v => decodeBytesInto (dst ++ v) ts
      | none => .error (ascii "invalid token for decoding")

def decodeBytes (tokens : List Rank) : Except ByteString ByteString := b.decodeBytesInto [] tokens

-- `string(bs)` keeps the bytes as they are.
def decodeUTF8 (tokens : List Rank) : Except ByteString ByteString := b.decodeBytes tokens

def isSpecialToken (id : Rank) : Bool := (b.specialDec id).isSome

end CoreBPE

end Harmony
