import Harmony.Tokenizer.MergeReference

set_option autoImplicit false

namespace Harmony.Merge

variable (enc : ByteString → Option Rank)

-- What `getRank` leaves in each part: the rank of the span from its start to the start two parts on.
def cachedRanks (piece : ByteString) : List Nat → List Rank
  | [] => []
  | a :: rest =>
    (if 1 < rest.length then rankOr enc (slice piece a (rest.getD 1 0)) else maxRank) ::
      cachedRanks piece rest

theorem start_getD (parts : List Part) (k : Nat) :
    (parts.getD k default).start = (parts.map Part.start).getD k 0 := by
  rw [← List.getD_map parts default Part.start]; rfl

theorem getD_eraseIdx (l : List Nat) (i k : Nat) :
    (l.eraseIdx i).getD k 0 = if k < i then l.getD k 0 else l.getD (k + 1) 0 := by
  simp only [List.getD_eq_getElem?_getD, List.getElem?_eraseIdx]
  split <;> rfl

theorem map_start_modify (parts : List Part) (n : Nat) (r : Rank) :
    (parts.modify (fun p => { p with rank := r }) n).map Part.start = parts.map Part.start := by
  induction parts generalizing n with
  | nil => simp
  | cons p ps ih => cases n <;> simp [List.modify_zero_cons, List.modify_succ_cons, ih]

theorem getRank_eq_starts (piece : ByteString) (parts : List Part) (i : Nat) :
    getRank enc piece parts i =
      if i + 3 < (parts.map Part.start).length then
        rankOr enc (slice piece ((parts.map Part.start).getD i 0) ((parts.map Part.start).getD (i + 3) 0))
      else maxRank := by
  simp only [getRank, List.length_map, start_getD]

theorem getRank_modify (piece : ByteString) (parts : List Part) (n i : Nat) (r : Rank) :
    getRank enc piece (parts.modify (fun p => { p with rank := r }) n) i = getRank enc piece parts i := by
  rw [getRank_eq_starts, getRank_eq_starts, map_start_modify]

@[simp] theorem getRank_cons_succ (piece : ByteString) (p : Part) (parts : List Part) (i : Nat) :
    getRank enc piece (p :: parts) (i + 1) = getRank enc piece parts i := by
  simp only [getRank, List.length_cons, List.getD_cons_succ, Nat.add_right_comm i 1 3]
  simp

theorem mergeAt_starts (piece : ByteString) (parts : List Part) (i : Nat) :
    (mergeAt enc piece parts i).map Part.start = (parts.map Part.start).eraseIdx (i + 1) := by
  unfold mergeAt
  split <;>
    simp only [List.map_append, List.map_take, List.map_drop, map_start_modify,
      List.eraseIdx_eq_take_drop_succ]

theorem length_mergeAt (piece : ByteString) (parts : List Part) {i : Nat} (inside : i + 1 < parts.length) :
    (mergeAt enc piece parts i).length = parts.length - 1 := by
  rw [← List.length_map _ Part.start, mergeAt_starts, List.length_eraseIdx, List.length_map, if_pos inside]

theorem mergeAt_cons (piece : ByteString) (p : Part) (parts : List Part) (i : Nat) :
    mergeAt enc piece (p :: parts) (i + 1) =
      (if i = 0 then { p with rank := getRank enc piece (p :: parts) 0 } else p) ::
        mergeAt enc piece parts i := by
  cases i <;> simp [mergeAt, List.modify_zero_cons, List.modify_succ_cons, getRank_modify]

@[simp] theorem cachedRanks_nil (piece : ByteString) : cachedRanks enc piece [] = [] := rfl

@[simp] theorem cachedRanks_cons (piece : ByteString) (a : Nat) (rest : List Nat) :
    cachedRanks enc piece (a :: rest) =
      (if 1 < rest.length then rankOr enc (slice piece a (rest.getD 1 0)) else maxRank) ::
        cachedRanks enc piece rest := rfl

theorem cached_mergeAt (piece : ByteString) {parts : List Part} {i : Nat}
    (cached : parts.map Part.rank = cachedRanks enc piece (parts.map Part.start))
    (inside : i + 2 < parts.length) :
    (mergeAt enc piece parts i).map Part.rank =
      cachedRanks enc piece ((parts.map Part.start).eraseIdx (i + 1)) := by
  induction i generalizing parts with
  | zero =>
    rcases parts with _ | ⟨p, _ | ⟨q, ps⟩⟩
    · simp at inside
    · simp at inside
    · simp only [List.map_cons, cachedRanks_cons, List.cons.injEq] at cached
      simp [mergeAt, List.modify_zero_cons, getRank_eq_starts, cached.2.2]
      split_ifs <;> first | rfl | omega
  | succ i ih =>
    rcases parts with _ | ⟨p, ps⟩
    · simp at inside
    · simp only [List.map_cons, cachedRanks_cons, List.cons.injEq] at cached
      simp only [List.length_cons] at inside
      rw [mergeAt_cons, List.map_cons, List.map_cons, List.eraseIdx_cons_succ, cachedRanks_cons,
        ih cached.2 (by omega)]
      congr 1
      rw [List.length_eraseIdx, getD_eraseIdx, List.length_map]
      by_cases first : i = 0
      · subst first
        simp [getRank_eq_starts]
        split_ifs <;> first | rfl | omega
      · simp only [first, if_false, cached.1, List.length_map]
        split_ifs <;> first | rfl | omega

theorem slice_of_drop {piece x y : ByteString} {n : Nat} (rest : piece.drop n = x ++ y) :
    slice piece n (n + x.length) = x := by
  rw [slice, rest, Nat.add_sub_cancel_left, List.take_left' rfl]

theorem drop_of_drop {piece x y : ByteString} {n : Nat} (rest : piece.drop n = x ++ y) :
    piece.drop (n + x.length) = y := by
  rw [← List.drop_drop, rest, List.drop_left' rfl]

@[simp] theorem length_boundariesFrom (n : Nat) (parts : List ByteString) :
    (boundariesFrom n parts).length = parts.length + 1 := by
  induction parts generalizing n with
  | nil => rfl
  | cons p rest ih => simp [boundariesFrom, ih]

theorem boundariesFrom_eq_cons (n : Nat) (parts : List ByteString) :
    boundariesFrom n parts = n :: (boundariesFrom n parts).tail := by
  cases parts <;> rfl

theorem boundariesFrom_mergePair (n : Nat) {parts : List ByteString} {j : Nat}
    (inside : j + 1 < parts.length) :
    boundariesFrom n (mergePair parts j) = (boundariesFrom n parts).eraseIdx (j + 1) := by
  induction parts generalizing n j with
  | nil => simp at inside
  | cons a rest ih =>
    cases j with
    | zero =>
      cases rest with
      | nil => simp at inside
      | cons b rest => simp [mergePair, boundariesFrom, Nat.add_assoc]
    | succ j =>
      cases rest with
      | nil => simp at inside
      | cons b rest =>
        simp only [List.length_cons] at inside
        rw [mergePair, boundariesFrom, ih _ (by simp only [List.length_cons]; omega)]
        simp only [boundariesFrom, List.eraseIdx_cons_succ]

theorem cachedRanks_boundariesFrom (piece : ByteString) {parts : List ByteString} (n : Nat)
    {post : ByteString} (laid : piece.drop n = parts.flatten ++ post) (nonempty : parts ≠ []) :
    cachedRanks enc piece (boundariesFrom n parts) =
      (pairRanks enc parts).map (·.getD maxRank) ++ [maxRank, maxRank] := by
  induction parts generalizing n with
  | nil => contradiction
  | cons a rest ih =>
    cases rest with
    | nil => simp [boundariesFrom, pairRanks]
    | cons b rest =>
      have pair : piece.drop n = (a ++ b) ++ (rest.flatten ++ post) := by simpa using laid
      have next : piece.drop (n + a.length) = (b :: rest).flatten ++ post :=
        drop_of_drop (by simpa using laid)
      rw [boundariesFrom, cachedRanks_cons, ih _ next (List.cons_ne_nil _ _), boundariesFrom_eq_cons,
        boundariesFrom, boundariesFrom_eq_cons]
      have within := slice_of_drop pair
      simp only [List.length_append, ← Nat.add_assoc] at within
      simp [pairRanks, rankOr, within]

theorem spans_boundariesFrom (piece : ByteString) {parts : List ByteString} (n : Nat)
    {post : ByteString} (laid : piece.drop n = parts.flatten ++ post) :
    ((boundariesFrom n parts).zip (boundariesFrom n parts).tail).map (fun w => slice piece w.1 w.2) =
      parts := by
  induction parts generalizing n with
  | nil => rfl
  | cons a rest ih =>
    have next : piece.drop (n + a.length) = rest.flatten ++ post := drop_of_drop (by simpa using laid)
    have spans := ih _ next
    obtain ⟨later, starts⟩ : ∃ later, boundariesFrom (n + a.length) rest = (n + a.length) :: later :=
      ⟨_, boundariesFrom_eq_cons _ _⟩
    rw [starts] at spans
    rw [boundariesFrom, starts]
    simp only [List.tail_cons, List.zip_cons_cons, List.map_cons] at spans ⊢
    rw [spans, slice_of_drop (by simpa using laid)]

@[simp] theorem scanMin_single (m : MinRank) (j : Nat) (p : Part) : scanMin m j [p] = m := rfl

theorem scanMin_cons (m : MinRank) (j : Nat) (p : Part) {rest : List Part} (more : rest ≠ []) :
    scanMin m j (p :: rest) = scanMin (if p.rank < m.rank then ⟨p.rank, j⟩ else m) (j + 1) rest := by
  cases rest with
  | nil => contradiction
  | cons q rest => rfl

theorem scanMin_snoc (m : MinRank) (j : Nat) (ps : List Part) (p d : Part) :
    scanMin m j (ps ++ [p, d]) =
      if p.rank < (scanMin m j (ps ++ [p])).rank then ⟨p.rank, j + ps.length⟩
      else scanMin m j (ps ++ [p]) := by
  induction ps generalizing m j with
  | nil => rfl
  | cons q ps ih =>
    rw [List.cons_append, List.cons_append, scanMin_cons _ _ _ (by simp), scanMin_cons _ _ _ (by simp),
      ih, List.length_cons]
    congr 2
    push_cast
    ring

-- `minRank` holds what the reference's scan holds: nothing at `^uint32(0)`, or the pair it chose.
def Agree (m : MinRank) : Option (Rank × Nat) → Prop
  | none => m.rank = maxRank
  | some (r, k) => m.rank = r ∧ m.idx = k ∧ r ≠ maxRank

theorem agree_pick {m : MinRank} {best : Option (Rank × Nat)} {p : Part} {x : Option Rank} (j : Nat)
    (agree : Agree m best) (ranked : p.rank = x.getD maxRank) (below : ∀ r, x = some r → r ≠ maxRank) :
    Agree (if p.rank < m.rank then ⟨p.rank, j⟩ else m) (pick best j x) := by
  cases x with
  | none =>
    rw [Option.getD_none] at ranked
    rw [ranked, if_neg (not_maxRank_lt _)]
    cases best <;> exact agree
  | some r =>
    rw [Option.getD_some] at ranked
    have fits := below r rfl
    cases best with
    | none =>
      simp only [Agree] at agree
      simp [pick, Agree, ranked, agree, lt_maxRank fits, fits]
    | some best =>
      obtain ⟨b, i⟩ := best
      obtain ⟨rank, idx, kept⟩ := agree
      by_cases lower : r < b
      · simp [pick, Agree, ranked, rank, lower, fits]
      · simp [pick, Agree, ranked, rank, lower, idx, kept]

theorem scanMin_agree {rs : List (Option Rank)} (below : ∀ r, some r ∈ rs → r ≠ maxRank)
    {parts : List Part} {m : MinRank} {best : Option (Rank × Nat)} {j : Nat}
    (ranks : parts.map Part.rank = rs.map (·.getD maxRank) ++ [maxRank, maxRank])
    (agree : Agree m best) :
    Agree (scanMin m j parts) (lowestFrom best j rs) := by
  induction rs generalizing parts m best j with
  | nil =>
    rcases parts with _ | ⟨p, _ | ⟨q, _ | ⟨_, _⟩⟩⟩ <;> simp at ranks
    rw [scanMin, ranks.1, if_neg (not_maxRank_lt _), scanMin_single]
    exact agree
  | cons x rs ih =>
    rcases parts with _ | ⟨p, rest⟩
    · simp at ranks
    · simp only [List.map_cons, List.cons_append, List.cons.injEq] at ranks
      have more : rest ≠ [] := by rintro rfl; simp at ranks
      rw [scanMin_cons _ _ _ more]
      exact ih (fun r mem => below r (List.mem_cons_of_mem _ mem)) ranks.2
        (agree_pick j agree ranks.1 (fun r picked => below r (picked ▸ List.mem_cons_self _ _)))

theorem pairRanks_below (below : ∀ x r, enc x = some r → r ≠ maxRank) (parts : List ByteString) :
    ∀ r, some r ∈ pairRanks enc parts → r ≠ maxRank := by
  induction parts with
  | nil => simp [pairRanks]
  | cons a rest ih =>
    cases rest with
    | nil => simp [pairRanks]
    | cons b rest =>
      intro r mem
      rcases List.mem_cons.mp mem with here | later
      · exact below _ _ here.symm
      · exact ih r later

-- The loop's parts start where the reference's parts do, and every cached rank is current.
structure Simulates (piece : ByteString) (ref : List ByteString) (parts : List Part) : Prop where
  starts : parts.map Part.start = boundaries ref
  laid : ref.flatten = piece
  cached : parts.map Part.rank = cachedRanks enc piece (parts.map Part.start)
  nonempty : ref ≠ []

section Simulation

variable {enc} {piece : ByteString} {ref : List ByteString} {parts : List Part}

theorem Simulates.length (rel : Simulates enc piece ref parts) : parts.length = ref.length + 1 := by
  rw [← List.length_map parts Part.start, rel.starts, boundaries, length_boundariesFrom]

theorem Simulates.ranks (rel : Simulates enc piece ref parts) :
    parts.map Part.rank = (pairRanks enc ref).map (·.getD maxRank) ++ [maxRank, maxRank] := by
  rw [rel.cached, rel.starts]
  exact cachedRanks_boundariesFrom enc piece 0
    (show piece.drop 0 = ref.flatten ++ [] by simp [rel.laid]) rel.nonempty

theorem Simulates.mergeAt (rel : Simulates enc piece ref parts) {j : Nat}
    (found : lowestPair enc ref = some j) :
    Simulates enc piece (mergePair ref j) (mergeAt enc piece parts j) := by
  have inside := lowestPair_lt enc found
  have size := rel.length
  refine ⟨?_, ?_, ?_, ?_⟩
  · rw [mergeAt_starts, rel.starts, boundaries, boundaries, boundariesFrom_mergePair 0 inside]
  · rw [flatten_mergePair, rel.laid]
  · rw [mergeAt_starts]
    exact cached_mergeAt enc piece rel.cached (by omega)
  · exact List.ne_nil_of_length_pos (by rw [length_mergePair inside]; omega)

theorem Simulates.next (below : ∀ x r, enc x = some r → r ≠ maxRank)
    (rel : Simulates enc piece ref parts) :
    (lowestPair enc ref = none ∧ (scanMin MinRank.none 0 parts).rank = maxRank) ∨
      ∃ j, lowestPair enc ref = some j ∧ (scanMin MinRank.none 0 parts).rank ≠ maxRank ∧
        (scanMin MinRank.none 0 parts).idx.toNat = j := by
  have agree : Agree (scanMin MinRank.none 0 parts) (lowestFrom none 0 (pairRanks enc ref)) :=
    scanMin_agree (pairRanks_below enc below ref) rel.ranks rfl
  rcases found : lowestFrom none 0 (pairRanks enc ref) with _ | ⟨r, j⟩ <;> rw [found] at agree
  · exact .inl ⟨by simp [lowestPair, found], agree⟩
  · obtain ⟨rank, idx, fits⟩ := agree
    exact .inr ⟨j, by simp [lowestPair, found], by rw [rank]; exact fits, by simp [idx]⟩

theorem mergeLoop_simulates (below : ∀ x r, enc x = some r → r ≠ maxRank) (fuel : Nat)
    (rel : Simulates enc piece ref parts) (enough : ref.length ≤ fuel + 1) :
    Simulates enc piece (referenceMerge enc ref)
      (mergeLoop enc piece fuel parts (scanMin MinRank.none 0 parts)) := by
  induction fuel generalizing ref parts with
  | zero =>
    rcases rel.next below with ⟨stop, -⟩ | ⟨j, chosen, -⟩
    · rw [referenceMerge_of_none enc stop]
      exact rel
    · have := lowestPair_lt enc chosen
      omega
  | succ fuel ih =>
    rcases rel.next below with ⟨stop, done⟩ | ⟨j, chosen, going, idx⟩
    · rw [referenceMerge_of_none enc stop, mergeLoop, if_neg (by simpa using done)]
      exact rel
    · rw [referenceMerge_of_some enc chosen, mergeLoop, if_pos going, idx]
      exact ih (rel.mergeAt chosen) (by rw [length_mergePair (lowestPair_lt enc chosen)]; omega)

end Simulation

def pairParts (piece : ByteString) : List Part :=
  (List.range (piece.length - 1)).map fun i => ⟨i, rankOr enc (slice piece i (i + 2))⟩

theorem initParts_eq (piece : ByteString) (d : Part) :
    initParts enc piece = (pairParts enc piece, scanMin MinRank.none 0 (pairParts enc piece ++ [d])) := by
  unfold initParts pairParts
  generalize piece.length - 1 = k
  induction k generalizing d with
  | zero => rfl
  | succ k ih =>
    rw [List.range_succ, List.foldl_append, ih ⟨k, rankOr enc (slice piece k (k + 2))⟩]
    simp [scanMin_snoc]

theorem boundariesFrom_singletons (n : Nat) (piece : ByteString) :
    boundariesFrom n (piece.map fun b => [b]) = List.range' n (piece.length + 1) := by
  induction piece generalizing n with
  | nil => rfl
  | cons b piece ih => simp [boundariesFrom, ih, List.range'_succ]

theorem flatten_singletons (piece : ByteString) : (piece.map fun b => [b]).flatten = piece := by
  induction piece with
  | nil => rfl
  | cons b piece ih => simp [ih]

theorem cachedRanks_range' (piece : ByteString) (a k : Nat) :
    cachedRanks enc piece (List.range' a (k + 2)) =
      (List.range' a k).map (fun i => rankOr enc (slice piece i (i + 2))) ++ [maxRank, maxRank] := by
  induction k generalizing a with
  | zero => simp [List.range'_succ]
  | succ k ih =>
    rw [List.range'_succ, cachedRanks_cons, ih, List.range'_succ]
    simp [List.range'_succ, Nat.add_assoc]

theorem pairParts_starts (piece : ByteString) :
    (pairParts enc piece).map Part.start = List.range (piece.length - 1) := by
  simp [pairParts, Function.comp_def]

theorem simulates_init (piece : ByteString) (long : 2 ≤ piece.length) :
    Simulates enc piece (piece.map fun b => [b])
      (pairParts enc piece ++ [Part.mk (piece.length - 1) maxRank, Part.mk piece.length maxRank]) := by
  obtain ⟨k, size⟩ : ∃ k, piece.length = k + 1 := ⟨piece.length - 1, by omega⟩
  have starts : (pairParts enc piece ++ [Part.mk (piece.length - 1) maxRank, Part.mk piece.length maxRank]).map
      Part.start = List.range' 0 (piece.length + 1) := by
    rw [List.map_append, pairParts_starts, List.range_eq_range', size, Nat.add_sub_cancel]
    have last : [Part.mk k maxRank, Part.mk (k + 1) maxRank].map Part.start = List.range' (0 + 1 * k) 2 := by
      simp [List.range'_succ]
    rw [last, List.range'_append, Nat.add_comm]
  refine ⟨?_, flatten_singletons piece, ?_, ?_⟩
  · rw [starts, boundaries, boundariesFrom_singletons]
  · rw [starts, show piece.length + 1 = (piece.length - 1) + 2 by omega, cachedRanks_range']
    simp [pairParts, List.range_eq_range']
  · simp only [ne_eq, List.map_eq_nil_iff]
    exact List.ne_nil_of_length_pos (by omega)

theorem bytePairMerge_simulates (below : ∀ x r, enc x = some r → r ≠ maxRank) (piece : ByteString)
    (long : 2 ≤ piece.length) :
    Simulates enc piece (referenceMerge enc (piece.map fun b => [b])) (bytePairMerge enc piece) := by
  have first : scanMin MinRank.none 0 (pairParts enc piece ++ [Part.mk (piece.length - 1) maxRank]) =
      scanMin MinRank.none 0
        (pairParts enc piece ++ [Part.mk (piece.length - 1) maxRank, Part.mk piece.length maxRank]) := by
    rw [scanMin_snoc, if_neg (not_maxRank_lt _)]
  rw [bytePairMerge, initParts_eq enc piece (Part.mk (piece.length - 1) maxRank), first]
  exact mergeLoop_simulates below piece.length (simulates_init enc piece long) (by simp)

theorem bytePairEncode_eq_reference (below : ∀ x r, enc x = some r → r ≠ maxRank)
    (piece : ByteString) (long : 2 ≤ piece.length) :
    bytePairEncode enc piece = (referenceMerge enc (piece.map fun b => [b])).map fun p => (enc p).getD 0 := by
  have rel := bytePairMerge_simulates enc below piece long
  have spans := spans_boundariesFrom piece 0
    (show piece.drop 0 = (referenceMerge enc (piece.map fun b => [b])).flatten ++ [] by simp [rel.laid])
  calc bytePairEncode enc piece
      = ((((bytePairMerge enc piece).map Part.start).zip ((bytePairMerge enc piece).map Part.start).tail).map
          fun w => slice piece w.1 w.2).map fun p => (enc p).getD 0 := by
        rw [bytePairEncode, if_neg (by omega)]
        simp [← List.map_tail, List.zip_map, Function.comp_def]
    _ = _ := by rw [rel.starts, boundaries, spans]

theorem bytePairMerge_refines_reference (below : ∀ x r, enc x = some r → r ≠ maxRank)
    (piece : ByteString) (long : 2 ≤ piece.length) :
    (bytePairMerge enc piece).map Part.start = boundaries (referenceMerge enc (piece.map fun b => [b])) ∧
      bytePairEncode enc piece = (referenceMerge enc (piece.map fun b => [b])).map fun p => (enc p).getD 0 :=
  ⟨(bytePairMerge_simulates enc below piece long).starts, bytePairEncode_eq_reference enc below piece long⟩

def sampleRanks (x : ByteString) : Option Rank :=
  if x = ascii "ab" then some 300 else if x = ascii "bc" then some 200
  else if x = ascii "abc" then some 400 else none

theorem sampleRanks_below (x : ByteString) (r : Rank) (found : sampleRanks x = some r) :
    r ≠ maxRank := by
  unfold sampleRanks at found
  split_ifs at found <;> cases found <;> decide

theorem bytePairMerge_refines_abcab :
    (∀ x r, sampleRanks x = some r → r ≠ maxRank) ∧ 2 ≤ (ascii "abcab").length ∧
      ((bytePairMerge sampleRanks (ascii "abcab")).map Part.start =
          boundaries (referenceMerge sampleRanks ((ascii "abcab").map fun b => [b])) ∧
        bytePairEncode sampleRanks (ascii "abcab") =
          (referenceMerge sampleRanks ((ascii "abcab").map fun b => [b])).map
            fun p => (sampleRanks p).getD 0) :=
  ⟨sampleRanks_below, by decide,
    bytePairMerge_refines_reference sampleRanks sampleRanks_below (ascii "abcab") (by decide)⟩

example : (bytePairMerge sampleRanks (ascii "abcab")).map Part.start = [0, 3, 5] := by decide

end Harmony.Merge
