import Harmony.Tokenizer.MergeRefinement

set_option autoImplicit false

namespace Harmony.Merge

variable (enc : ByteString → Option Rank)

-- The parts at the top of round `k` of `bytePairMerge`'s main loop, or where the loop stopped before.
def partsAfter (piece : ByteString) (k : Nat) : List Part :=
  mergeLoop enc piece k
    ((initParts enc piece).1 ++ [⟨piece.length - 1, maxRank⟩, ⟨piece.length, maxRank⟩]) (initParts enc piece).2

-- Every span between two consecutive starts is a single byte or a key of the vocabulary.
def SpansKnown (piece : ByteString) : List Nat → Prop
  | a :: b :: rest => ((slice piece a b).length = 1 ∨ (enc (slice piece a b)).isSome) ∧ SpansKnown piece (b :: rest)
  | _ => True

-- What holds of the parts at the top of every round: starts rising from 0 to `len(piece)`, every rank the one
-- `getRank` would compute now, and every span a byte or a key.
structure PartsInvariant (piece : ByteString) (parts : List Part) : Prop where
  ascending : (parts.map Part.start).Pairwise (· < ·)
  first : (parts.map Part.start).head? = some 0
  last : (parts.map Part.start).getLast? = some piece.length
  cached : parts.map Part.rank = cachedRanks enc piece (parts.map Part.start)
  spans : SpansKnown enc piece (parts.map Part.start)

@[simp] theorem length_cachedRanks (piece : ByteString) (l : List Nat) : (cachedRanks enc piece l).length = l.length := by
  induction l with
  | nil => rfl
  | cons a rest ih => simp [ih]

theorem cachedRanks_getD (piece : ByteString) (l : List Nat) (i : Nat) :
    (cachedRanks enc piece l).getD i maxRank =
      if i + 2 < l.length then rankOr enc (slice piece (l.getD i 0) (l.getD (i + 2) 0)) else maxRank := by
  induction l generalizing i with
  | nil => simp
  | cons a rest ih =>
    cases i with
    | zero =>
      simp only [cachedRanks_cons, List.getD_cons_zero, List.length_cons, List.getD_cons_succ]
      split_ifs <;> first | rfl | omega
    | succ i =>
      simp only [cachedRanks_cons, List.getD_cons_succ, ih, List.length_cons]
      split_ifs <;> first | rfl | omega

variable {enc}

theorem PartsInvariant.rank_getD {piece : ByteString} {parts : List Part} (inv : PartsInvariant enc piece parts)
    {i : Nat} (inside : i < parts.length) :
    (parts.getD i default).rank =
      if i + 2 < parts.length then
        rankOr enc (slice piece (parts.getD i default).start (parts.getD (i + 2) default).start)
      else maxRank := by
  have read := congrArg (fun l => l.getD i maxRank) inv.cached
  simp only [cachedRanks_getD, List.length_map, ← start_getD] at read
  rw [← read, List.getD_eq_getElem?_getD, List.getD_eq_getElem?_getD, List.getElem?_map,
    List.getElem?_eq_getElem inside]
  rfl

theorem scanMin_cases (m : MinRank) (j : Nat) (parts : List Part) :
    scanMin m j parts = m ∨ ∃ k, k + 1 < parts.length ∧ scanMin m j parts = ⟨(parts.getD k default).rank, j + k⟩ := by
  induction parts generalizing m j with
  | nil => exact .inl rfl
  | cons p rest ih =>
    cases rest with
    | nil => exact .inl rfl
    | cons q rest =>
      rw [scanMin]
      rcases ih (if p.rank < m.rank then ⟨p.rank, j⟩ else m) (j + 1) with kept | ⟨k, inside, picked⟩
      · rw [kept]
        split_ifs
        · exact .inr ⟨0, by simp, by simp⟩
        · exact .inl rfl
      · refine .inr ⟨k + 1, by simpa using inside, ?_⟩
        rw [picked]
        simp only [List.getD_cons_succ, MinRank.mk.injEq, true_and]
        push_cast
        ring

theorem PartsInvariant.round {piece : ByteString} {parts : List Part} (inv : PartsInvariant enc piece parts)
    (going : (scanMin MinRank.none 0 parts).rank ≠ maxRank) :
    0 ≤ (scanMin MinRank.none 0 parts).idx ∧ (scanMin MinRank.none 0 parts).idx.toNat + 2 < parts.length ∧
      (enc (slice piece (parts.getD (scanMin MinRank.none 0 parts).idx.toNat default).start
        (parts.getD ((scanMin MinRank.none 0 parts).idx.toNat + 2) default).start)).isSome := by
  rcases scanMin_cases MinRank.none 0 parts with kept | ⟨k, inside, picked⟩
  · exact absurd (by rw [kept]; rfl) going
  have idx : (scanMin MinRank.none 0 parts).idx = k := by rw [picked]; simp
  rw [idx, Int.toNat_natCast]
  rw [picked, inv.rank_getD (by omega)] at going
  split_ifs at going with far
  · exact ⟨by omega, far, Option.isSome_iff_ne_none.mpr fun missing => going (by rw [rankOr, missing]; rfl)⟩
  · exact absurd rfl going

theorem head?_eraseIdx_succ (l : List Nat) (k : Nat) : (l.eraseIdx (k + 1)).head? = l.head? := by
  cases l <;> rfl

theorem getLast?_eraseIdx {l : List Nat} {k : Nat} (inside : k + 1 < l.length) :
    (l.eraseIdx k).getLast? = l.getLast? := by
  have size : (l.eraseIdx k).length = l.length - 1 := List.length_eraseIdx_of_lt (by omega)
  rw [List.getLast?_eq_getElem?, List.getLast?_eq_getElem?, size, List.getElem?_eraseIdx, if_neg (by omega)]
  congr 1
  omega

theorem spansKnown_eraseIdx (piece : ByteString) {l : List Nat} {i : Nat} (spans : SpansKnown enc piece l)
    (inside : i + 2 < l.length) (key : (enc (slice piece (l.getD i 0) (l.getD (i + 2) 0))).isSome) :
    SpansKnown enc piece (l.eraseIdx (i + 1)) := by
  induction i generalizing l with
  | zero =>
    rcases l with _ | ⟨a, _ | ⟨b, _ | ⟨c, rest⟩⟩⟩
    all_goals simp at inside
    exact ⟨.inr key, spans.2.2⟩
  | succ i ih =>
    rcases l with _ | ⟨a, _ | ⟨b, rest⟩⟩
    all_goals simp at inside
    rw [List.eraseIdx_cons_succ]
    have tail := ih spans.2 (by simp at inside ⊢; omega) (by simpa using key)
    rcases rest with _ | ⟨c, rest⟩
    · simp at inside
    · exact ⟨spans.1, by simpa using tail⟩

theorem PartsInvariant.mergeAt {piece : ByteString} {parts : List Part} (inv : PartsInvariant enc piece parts)
    (going : (scanMin MinRank.none 0 parts).rank ≠ maxRank) :
    PartsInvariant enc piece (mergeAt enc piece parts (scanMin MinRank.none 0 parts).idx.toNat) ∧
      (mergeAt enc piece parts (scanMin MinRank.none 0 parts).idx.toNat).length = parts.length - 1 := by
  obtain ⟨-, inside, key⟩ := inv.round going
  generalize (scanMin MinRank.none 0 parts).idx.toNat = i at inside key
  have startsInside : i + 1 + 1 < (parts.map Part.start).length := by simpa using inside
  refine ⟨⟨?_, ?_, ?_, ?_, ?_⟩, length_mergeAt enc piece parts (by omega)⟩
  all_goals rw [mergeAt_starts]
  · exact inv.ascending.sublist (List.eraseIdx_sublist _ _)
  · rw [head?_eraseIdx_succ, inv.first]
  · rw [getLast?_eraseIdx startsInside, inv.last]
  · exact cached_mergeAt enc piece inv.cached inside
  · exact spansKnown_eraseIdx piece inv.spans (by simpa using inside) (by simpa only [start_getD] using key)

theorem spansKnown_range' (piece : ByteString) (a n : Nat) (within : a + n ≤ piece.length + 1) :
    SpansKnown enc piece (List.range' a n) := by
  induction n generalizing a with
  | zero => trivial
  | succ n ih =>
    cases n with
    | zero => trivial
    | succ n =>
      rw [List.range'_succ, List.range'_succ]
      refine ⟨.inl (by simp; omega), ?_⟩
      rw [← List.range'_succ]
      exact ih (a + 1) (by omega)

theorem initParts_parts (piece : ByteString) :
    initParts enc piece = (pairParts enc piece, scanMin MinRank.none 0
      (pairParts enc piece ++ [⟨piece.length - 1, maxRank⟩, ⟨piece.length, maxRank⟩])) := by
  rw [initParts_eq enc piece ⟨piece.length - 1, maxRank⟩, scanMin_snoc, if_neg (not_maxRank_lt _)]

theorem partsInvariant_init (piece : ByteString) (long : 2 ≤ piece.length) :
    PartsInvariant enc piece (pairParts enc piece ++ [⟨piece.length - 1, maxRank⟩, ⟨piece.length, maxRank⟩]) := by
  have rel := simulates_init enc piece long
  have starts : (pairParts enc piece ++ [Part.mk (piece.length - 1) maxRank, Part.mk piece.length maxRank]).map
      Part.start = List.range' 0 (piece.length + 1) := by
    rw [rel.starts, boundaries, boundariesFrom_singletons]
  refine ⟨?_, ?_, ?_, rel.cached, ?_⟩ <;> rw [starts]
  · exact List.pairwise_lt_range' 0 _
  · simp [List.head?_range']
  · simp [List.getLast?_range']
  · exact spansKnown_range' piece 0 _ (by omega)

variable (enc) in
-- One round of the loop: merge at the minimum, or nothing once every rank is `^uint32(0)`.
def mergeRound (piece : ByteString) (parts : List Part) : List Part :=
  if (scanMin MinRank.none 0 parts).rank ≠ maxRank then
    mergeAt enc piece parts (scanMin MinRank.none 0 parts).idx.toNat
  else parts

theorem mergeLoop_succ (piece : ByteString) (k : Nat) (parts : List Part) :
    mergeLoop enc piece (k + 1) parts (scanMin MinRank.none 0 parts) =
      mergeRound enc piece (mergeLoop enc piece k parts (scanMin MinRank.none 0 parts)) := by
  induction k generalizing parts with
  | zero => rfl
  | succ k ih =>
    by_cases going : (scanMin MinRank.none 0 parts).rank ≠ maxRank
    · simp only [mergeLoop, if_pos going]
      exact ih _
    · simp only [mergeLoop, if_neg going, mergeRound]

theorem partsAfter_succ (piece : ByteString) (k : Nat) :
    partsAfter enc piece (k + 1) = mergeRound enc piece (partsAfter enc piece k) := by
  rw [partsAfter, partsAfter, initParts_parts]
  exact mergeLoop_succ piece k _

theorem partsAfter_invariant {piece : ByteString} (long : 2 ≤ piece.length) (k : Nat) :
    PartsInvariant enc piece (partsAfter enc piece k) := by
  induction k with
  | zero =>
    rw [partsAfter, initParts_parts]
    exact partsInvariant_init piece long
  | succ k ih =>
    rw [partsAfter_succ, mergeRound]
    split_ifs with going
    · exact (ih.mergeAt going).1
    · exact ih

theorem partsAfter_length {piece : ByteString} (long : 2 ≤ piece.length) (k : Nat) :
    (scanMin MinRank.none 0 (partsAfter enc piece k)).rank = maxRank ∨
      (partsAfter enc piece k).length + k = piece.length + 1 := by
  induction k with
  | zero =>
    right
    rw [partsAfter, initParts_parts, mergeLoop]
    simp [pairParts]
    omega
  | succ k ih =>
    rw [partsAfter_succ, mergeRound]
    split_ifs with going
    · have size := ((partsAfter_invariant long k).mergeAt going).2
      have inside := ((partsAfter_invariant long k).round going).2.1
      rcases ih with stopped | counted
      · exact absurd stopped going
      · right
        omega
    · exact .inl (not_not.mp going)

theorem partsAfter_stops {piece : ByteString} (long : 2 ≤ piece.length) :
    (scanMin MinRank.none 0 (partsAfter enc piece (piece.length - 1))).rank = maxRank := by
  rcases partsAfter_length long (piece.length - 1) with stopped | counted
  · exact stopped
  · by_contra going
    have inside := ((partsAfter_invariant long _).round going).2.1
    omega

theorem bytePairMerge_eq_partsAfter {piece : ByteString} (long : 2 ≤ piece.length) :
    bytePairMerge enc piece = partsAfter enc piece (piece.length - 1) := by
  have whole : bytePairMerge enc piece = partsAfter enc piece (piece.length - 1 + 1) := by
    rw [Nat.sub_add_cancel (by omega)]
    rfl
  rw [whole, partsAfter_succ, mergeRound, if_neg (not_not.mpr (partsAfter_stops long))]

variable (enc) in
-- Every round of the main loop of `bytePairMerge` on `piece`, as the loop's comments and indexing assume it.
structure MergeRounds (piece : ByteString) : Prop where
  invariant : ∀ k, PartsInvariant enc piece (partsAfter enc piece k)
  lastTwo : ∀ k i, i < (partsAfter enc piece k).length → (partsAfter enc piece k).length ≤ i + 2 →
    ((partsAfter enc piece k).getD i default).rank = maxRank
  ranked : ∀ k i, i + 2 < (partsAfter enc piece k).length →
    ((partsAfter enc piece k).getD i default).rank =
      rankOr enc (slice piece ((partsAfter enc piece k).getD i default).start
        ((partsAfter enc piece k).getD (i + 2) default).start)
  removes : ∀ k, (scanMin MinRank.none 0 (partsAfter enc piece k)).rank ≠ maxRank →
    ∃ i : Nat, (scanMin MinRank.none 0 (partsAfter enc piece k)).idx = i ∧ i + 2 < (partsAfter enc piece k).length ∧
      (partsAfter enc piece (k + 1)).map Part.start = ((partsAfter enc piece k).map Part.start).eraseIdx (i + 1)
  stops : (scanMin MinRank.none 0 (partsAfter enc piece (piece.length - 1))).rank = maxRank
  result : bytePairMerge enc piece = partsAfter enc piece (piece.length - 1)

variable (enc) in
theorem bytePairMerge_rounds (piece : ByteString) (long : 2 ≤ piece.length) : MergeRounds enc piece where
  invariant := partsAfter_invariant long
  lastTwo k i inside near := by rw [(partsAfter_invariant long k).rank_getD inside, if_neg (by omega)]
  ranked k i inside := by rw [(partsAfter_invariant long k).rank_getD (by omega), if_pos inside]
  removes k going := by
    obtain ⟨nonneg, inside, -⟩ := (partsAfter_invariant long k).round going
    refine ⟨_, (Int.toNat_of_nonneg nonneg).symm, inside, ?_⟩
    rw [partsAfter_succ, mergeRound, if_pos going, mergeAt_starts]
  stops := partsAfter_stops long
  result := bytePairMerge_eq_partsAfter long

theorem bytePairMerge_rounds_abcab : 2 ≤ (ascii "abcab").length ∧ MergeRounds sampleRanks (ascii "abcab") :=
  ⟨by decide, bytePairMerge_rounds sampleRanks (ascii "abcab") (by decide)⟩

end Harmony.Merge
