import Harmony.Tokenizer.Core

set_option autoImplicit false

namespace Harmony

namespace TokenStore

-- `maxID` of both constructors: the largest id of the pairs, or 0.
def maxID (pairs : List (ByteString × Rank)) : Rank :=
  pairs.foldl (fun m p => if p.2 > m then p.2 else m) 0

-- `heapStore.arr`: for every id up to `maxID`, the bytes of its first pair. A pair's bytes are a non-nil slice, as
-- the loader makes them, so an empty token is stored.
def heapArr (pairs : List (ByteString × Rank)) : List (Option ByteString) :=
  pairs.foldl (fun tmp p => if tmp.getD p.2.toNat none = none then tmp.set p.2.toNat (some p.1) else tmp)
    (List.replicate ((maxID pairs).toNat + 1) none)

-- `heapStore.AppendInto`: the new `*dst`, and whether the id is known.
def heapAppendInto (arr : List (Option ByteString)) (dst : ByteString) (id : Rank) : ByteString × Bool :=
  if arr.length ≤ id.toNat then (dst, false)
  else
    match arr.getD id.toNat none with
    | none => (dst, false)
    | some b => (dst ++ b, true)

theorem le_maxID {pairs : List (ByteString × Rank)} {p : ByteString × Rank} (mem : p ∈ pairs) :
    p.2.toNat ≤ (maxID pairs).toNat := by
  suffices grows : ∀ (m : Rank) (rest : List (ByteString × Rank)),
      m.toNat ≤ (rest.foldl (fun m p => if p.2 > m then p.2 else m) m).toNat ∧
        ∀ q ∈ rest, q.2.toNat ≤ (rest.foldl (fun m p => if p.2 > m then p.2 else m) m).toNat from
    (grows 0 pairs).2 p mem
  intro m rest
  induction rest generalizing m with
  | nil => simp
  | cons q rest ih =>
    have bigger : m.toNat ≤ (if q.2 > m then q.2 else m).toNat ∧ q.2.toNat ≤ (if q.2 > m then q.2 else m).toNat := by
      split_ifs with above
      · exact ⟨le_of_lt above, le_rfl⟩
      · exact ⟨le_rfl, not_lt.mp above⟩
    obtain ⟨first, later⟩ := ih (if q.2 > m then q.2 else m)
    refine ⟨bigger.1.trans first, fun x mem => ?_⟩
    rcases List.mem_cons.mp mem with rfl | mem
    · exact bigger.2.trans first
    · exact later x mem

-- The arena build: offsets are `uint32`, kept as naturals taken modulo 2^32 where the code wraps.
structure ArenaStore where
  blob : ByteString
  off : List Nat

-- The first loop: `lens[id]` is set from a pair while it is still 0, and `total` adds that pair's length.
def arenaLens (pairs : List (ByteString × Rank)) (size : Nat) : List Nat × Nat :=
  pairs.foldl
    (fun acc p =>
      if acc.1.getD p.2.toNat 0 = 0 then (acc.1.set p.2.toNat (p.1.length % 2 ^ 32), acc.2 + p.1.length) else acc)
    (List.replicate size 0, 0)

-- `copy(blob[pos:], src)` for a `src` that fits.
def copyInto (blob : ByteString) (pos : Nat) (src : ByteString) : ByteString :=
  blob.take pos ++ src ++ blob.drop (pos + src.length)

-- One round of the second loop, over `(blob, off, pos)`: the bytes of id `i` are copied from the first pair
-- that carries `i`, at most `lens[i]` of them.
def layoutStep (pairs : List (ByteString × Rank)) (lens : List Nat) (acc : ByteString × List Nat × Nat) (i : Nat) :
    ByteString × List Nat × Nat :=
  let off := acc.2.1 ++ [acc.2.2 % 2 ^ 32]
  let n := lens.getD i 0
  if n > 0 then
    match pairs.find? (fun p => p.2.toNat = i) with
    | some p => (copyInto acc.1 acc.2.2 (p.1.take n), off, acc.2.2 + n)
    | none => (acc.1, off, acc.2.2 + n)
  else (acc.1, off, acc.2.2)

-- `newTokenStore` of the arena build.
def newArenaStore (pairs : List (ByteString × Rank)) : ArenaStore :=
  let size := (maxID pairs).toNat + 1
  let lens := arenaLens pairs size
  let laid := (List.range size).foldl (layoutStep pairs lens.1) (List.replicate lens.2 0, [], 0)
  ⟨laid.1, laid.2.1 ++ [laid.2.2 % 2 ^ 32]⟩

-- `arenaStore.AppendInto`: an id is known when its offset range is not empty.
def arenaAppendInto (s : ArenaStore) (dst : ByteString) (id : Rank) : ByteString × Bool :=
  if s.off.length - 1 ≤ id.toNat then (dst, false)
  else if s.off.getD id.toNat 0 = s.off.getD (id.toNat + 1) 0 then (dst, false)
  else (dst ++ slice s.blob (s.off.getD id.toNat 0) (s.off.getD (id.toNat + 1) 0), true)

example : arenaAppendInto (newArenaStore [(ascii "hi", 1), (ascii "bye", 2)]) (ascii "x") 2 = (ascii "xbye", true) := by
  decide

theorem arenaStore_differs :
    heapAppendInto (heapArr [([], 0)]) [] 0 = ([], true) ∧
      arenaAppendInto (newArenaStore [([], 0)]) [] 0 = ([], false) ∧
      heapAppendInto (heapArr [([], 0), (ascii "a", 0)]) [] 0 = ([], true) ∧
      arenaAppendInto (newArenaStore [([], 0), (ascii "a", 0)]) [] 0 = ([0], true) := by
  decide

end TokenStore

end Harmony
