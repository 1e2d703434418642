import Harmony.Runtime.Utf8

set_option autoImplicit false

namespace Harmony

-- `type Rank = uint32`
abbrev Rank := UInt32

-- `^uint32(0)`, the rank of a pair that is not in the vocabulary.
def maxRank : Rank := 0xFFFFFFFF

theorem rank_lt_iff {a b : Rank} : a < b ↔ a.toNat < b.toNat := Iff.rfl

theorem not_maxRank_lt (r : Rank) : ¬ maxRank < r := by
  have bound := r.toNat_lt
  rw [rank_lt_iff]
  simp only [maxRank, UInt32.toNat_ofNat, UInt32.size]
  omega

theorem lt_maxRank {r : Rank} (below : r ≠ maxRank) : r < maxRank := by
  have bound := r.toNat_lt
  have differ : r.toNat ≠ maxRank.toNat := fun same => below (UInt32.toNat.inj same)
  rw [rank_lt_iff]
  simp only [maxRank, UInt32.toNat_ofNat, UInt32.size] at differ ⊢
  omega

structure Part where
  start : Nat
  rank : Rank
deriving DecidableEq, Repr, Inhabited

-- The anonymous `minRank` struct of `bytePairMerge`.
structure MinRank where
  rank : Rank
  idx : Int
deriving DecidableEq, Repr

def MinRank.none : MinRank := ⟨maxRank, -1⟩

namespace Merge

variable (enc : ByteString → Option Rank)

-- `r, ok := b.enc[x]; if !ok { r = ^uint32(0) }`
def rankOr (x : ByteString) : Rank := (enc x).getD maxRank

def getRank (piece : ByteString) (parts : List Part) (i : Nat) : Rank :=
  if i + 3 < parts.length then
    rankOr enc (slice piece (parts.getD i default).start (parts.getD (i + 3) default).start)
  else maxRank

-- `for j := 0; j < len(parts)-1; j++ { if parts[j].rank < minRank.rank { minRank = {parts[j].rank, j} } }`
def scanMin : MinRank → Nat → List Part → MinRank
  | m, j, p :: q :: rest => scanMin (if p.rank < m.rank then ⟨p.rank, j⟩ else m) (j + 1) (q :: rest)
  | m, _, _ => m

-- The first loop: a part for every byte but the last, ranked by the pair it starts, and the minimum.
def initParts (piece : ByteString) : List Part × MinRank :=
  (List.range (piece.length - 1)).foldl
    (fun acc i =>
      let r := rankOr enc (slice piece i (i + 2))
      (acc.1 ++ [⟨i, r⟩], if r < acc.2.rank then ⟨r, i⟩ else acc.2))
    ([], MinRank.none)

-- One round of the main loop, merging the part at `i` with the next one.
def mergeAt (piece : ByteString) (parts : List Part) (i : Nat) : List Part :=
  let parts :=
    if i > 0 then parts.modify (fun p => { p with rank := getRank enc piece parts (i - 1) }) (i - 1)
    else parts
  let parts := parts.modify (fun p => { p with rank := getRank enc piece parts i }) i
  parts.take (i + 1) ++ parts.drop (i + 2)

-- `for minRank.rank != ^uint32(0) { ... }`. Each round drops a part and the last two parts are never
-- chosen, so `len(piece)` rounds are enough.
def mergeLoop (piece : ByteString) : Nat → List Part → MinRank → List Part
  | 0, parts, _ => parts
  | fuel + 1, parts, minRank =>
    if minRank.rank ≠ maxRank then
      let parts := mergeAt enc piece parts minRank.idx.toNat
      mergeLoop piece fuel parts (scanMin MinRank.none 0 parts)
    else parts

end Merge

open Merge

variable (enc : ByteString → Option Rank)

def bytePairMerge (piece : ByteString) : List Part :=
  let init := initParts enc piece
  mergeLoop enc piece piece.length
    (init.1 ++ [⟨piece.length - 1, maxRank⟩, ⟨piece.length, maxRank⟩]) init.2

-- `b.enc[piece[parts[w].start:parts[w+1].start]]` for each `w`: a missing key reads as `0`.
def bytePairEncode (piece : ByteString) : List Rank :=
  if piece.length = 1 then [(enc piece).getD 0]
  else
    let parts := bytePairMerge enc piece
    (parts.zip parts.tail).map fun w => (enc (slice piece w.1.start w.2.start)).getD 0

end Harmony
