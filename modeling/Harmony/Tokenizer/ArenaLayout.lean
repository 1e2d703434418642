import Harmony.Tokenizer.TokenStore

set_option autoImplicit false

namespace Harmony

namespace TokenStore

section Layout

variable (pairs : List (ByteString × Rank))

-- The first pair that carries id `i`, as the second loop finds it, and its bytes.
def firstBytes (i : Nat) : Option ByteString := (pairs.find? (fun p => p.2.toNat = i)).map Prod.fst

-- `lens[i]` once the first loop is over.
def firstLen (i : Nat) : Nat := ((firstBytes pairs i).map List.length).getD 0

def chunk (i : Nat) : ByteString := (firstBytes pairs i).getD []

-- `off[j]` before it is cut to `uint32`: the bytes laid out for the ids below `j`.
def offset (j : Nat) : Nat := ((List.range j).map (firstLen pairs)).sum

variable {pairs}

theorem offset_succ (j : Nat) : offset pairs (j + 1) = offset pairs j + firstLen pairs j := by
  simp [offset, List.range_succ]

theorem offset_mono {j k : Nat} (le : j ≤ k) : offset pairs j ≤ offset pairs k := by
  induction k, le using Nat.le_induction with
  | base => exact le_rfl
  | succ k _ ih => rw [offset_succ]; omega

theorem length_chunk (i : Nat) : (chunk pairs i).length = firstLen pairs i := by
  unfold chunk firstLen
  cases firstBytes pairs i <;> rfl

theorem firstBytes_concat (p : ByteString × Rank) (i : Nat) :
    firstBytes (pairs ++ [p]) i = (firstBytes pairs i).or (if p.2.toNat = i then some p.1 else none) := by
  unfold firstBytes
  cases found : pairs.find? (fun p => p.2.toNat = i) <;> by_cases own : p.2.toNat = i <;> simp [found, own]

theorem firstLen_concat (p : ByteString × Rank) (i : Nat) :
    firstLen (pairs ++ [p]) i = if firstBytes pairs i = none ∧ p.2.toNat = i then p.1.length else firstLen pairs i := by
  unfold firstLen
  rw [firstBytes_concat]
  cases firstBytes pairs i <;> by_cases own : p.2.toNat = i <;> simp [own]

theorem firstBytes_mem {i : Nat} {b : ByteString} (found : firstBytes pairs i = some b) : ∃ p ∈ pairs, p.1 = b := by
  obtain ⟨p, hit, rfl⟩ := Option.map_eq_some'.mp found
  exact ⟨p, List.mem_of_find?_eq_some hit, rfl⟩

theorem assignFirst_eq_firstBytes (id : Rank) : assignFirst pairs Prod.snd Prod.fst id = firstBytes pairs id.toNat := by
  suffices run : ∀ acc : Option ByteString,
      pairs.foldl (fun acc e => if e.2 = id ∧ acc.isNone then some e.1 else acc) acc =
        acc.or (firstBytes pairs id.toNat) from run none
  induction pairs with
  | nil => intro acc; simp [firstBytes]
  | cons p rest ih =>
    intro acc
    have same : p.2 = id ↔ p.2.toNat = id.toNat := ⟨congrArg _, UInt32.toNat.inj⟩
    rw [List.foldl_cons, ih]
    cases acc <;> by_cases own : p.2 = id <;> simp [firstBytes, List.find?_cons, own, same.not, ← same]

end Layout

section Lens

variable {pairs : List (ByteString × Rank)}

theorem sum_set_of_zero {l : List Nat} {k : Nat} (inside : k < l.length) (zero : l.getD k 0 = 0) (a : Nat) :
    (l.set k a).sum = l.sum + a := by
  induction l generalizing k with
  | nil => cases inside
  | cons x xs ih =>
    cases k with
    | zero => simp_all; omega
    | succ k =>
      simp only [List.set_cons_succ, List.sum_cons, List.length_cons, List.getD_cons_succ] at inside zero ⊢
      rw [ih (by omega) zero]
      omega

theorem getD_map_range (f : Nat → Nat) {size i : Nat} (inside : i < size) : ((List.range size).map f).getD i 0 = f i := by
  simp [List.getD_eq_getElem?_getD, inside]

theorem arenaLens_eq (nonempty : ∀ p ∈ pairs, p.1 ≠ []) (short : ∀ p ∈ pairs, p.1.length < 2 ^ 32) {size : Nat}
    (room : ∀ p ∈ pairs, p.2.toNat < size) :
    arenaLens pairs size = ((List.range size).map (firstLen pairs), offset pairs size) := by
  induction pairs using List.reverseRecOn with
  | nil =>
    have none : firstLen ([] : List (ByteString × Rank)) = fun _ => 0 := rfl
    simp [arenaLens, offset, none, List.map_const']
  | append_singleton pre p ih =>
    have inPre : ∀ q ∈ pre, q ∈ pre ++ [p] := fun q mem => List.mem_append_left _ mem
    have own : p ∈ pre ++ [p] := List.mem_append_right _ (List.mem_singleton_self p)
    rw [arenaLens, List.foldl_append, ← arenaLens, ih (fun q mem => nonempty q (inPre q mem))
      (fun q mem => short q (inPre q mem)) (fun q mem => room q (inPre q mem))]
    simp only [List.foldl_cons, List.foldl_nil, getD_map_range _ (room p own)]
    have fits : p.1.length % 2 ^ 32 = p.1.length := Nat.mod_eq_of_lt (short p own)
    cases fresh : firstBytes pre p.2.toNat with
    | none =>
      have zero : firstLen pre p.2.toNat = 0 := by simp [firstLen, fresh]
      have lens : ((List.range size).map (firstLen pre)).set p.2.toNat (p.1.length % 2 ^ 32) =
          (List.range size).map (firstLen (pre ++ [p])) := by
        refine List.ext_getElem (by simp) fun i _ _ => ?_
        by_cases same : p.2.toNat = i
        · subst same; simpa [firstLen_concat, fresh] using short p own
        · simp [List.getElem_set, firstLen_concat, same]
      have total : offset (pre ++ [p]) size = offset pre size + p.1.length := by
        rw [offset, ← lens, sum_set_of_zero (by simp [room p own]) (by rw [getD_map_range _ (room p own), zero]), fits]
        rfl
      rw [if_pos zero, lens, total]
    | some b =>
      obtain ⟨q, mem, rfl⟩ := firstBytes_mem fresh
      have held : firstLen pre p.2.toNat ≠ 0 := by
        simpa [firstLen, fresh] using nonempty q (inPre q mem)
      have same : firstLen (pre ++ [p]) = firstLen pre := funext fun i => by
        rw [firstLen_concat, if_neg]
        rintro ⟨none, rfl⟩
        rw [fresh] at none
        cases none
      rw [if_neg held, offset, offset, same]

theorem arenaLens_total_le (size : Nat) : (arenaLens pairs size).2 ≤ (pairs.map fun p => p.1.length).sum := by
  induction pairs using List.reverseRecOn with
  | nil => simp [arenaLens]
  | append_singleton pre p ih =>
    rw [arenaLens, List.foldl_append, ← arenaLens, List.map_append, List.sum_append]
    simp only [List.foldl_cons, List.foldl_nil, List.map_cons, List.map_nil, List.sum_cons, List.sum_nil]
    split_ifs
    · dsimp only; omega
    · omega

end Lens

section Laying

variable {pairs : List (ByteString × Rank)}

theorem copyInto_nil (blob : ByteString) (pos : Nat) : copyInto blob pos [] = blob := by
  simp [copyInto]

theorem copyInto_laid {blob pre src : ByteString} {pos : Nat} (laid : blob.take pos = pre)
    (fits : pos + src.length ≤ blob.length) :
    (copyInto blob pos src).length = blob.length ∧ (copyInto blob pos src).take (pos + src.length) = pre ++ src := by
  have long : pre.length = pos := by rw [← laid, List.length_take]; omega
  refine ⟨?_, ?_⟩
  · simp only [copyInto, List.length_append, List.length_take, List.length_drop]
    omega
  · rw [copyInto, laid, List.append_assoc, ← List.append_assoc pre, List.take_left' (by simp [long])]

theorem layoutStep_eq (nonempty : ∀ p ∈ pairs, p.1 ≠ []) {size i : Nat} (inside : i < size)
    (acc : ByteString × List Nat × Nat) :
    layoutStep pairs ((List.range size).map (firstLen pairs)) acc i =
      (copyInto acc.1 acc.2.2 (chunk pairs i), acc.2.1 ++ [acc.2.2 % 2 ^ 32], acc.2.2 + firstLen pairs i) := by
  unfold layoutStep
  rw [getD_map_range _ inside]
  unfold firstLen chunk firstBytes
  cases found : pairs.find? (fun p => p.2.toNat = i) with
  | none => simp [copyInto_nil]
  | some p =>
    have long : 0 < p.1.length := List.length_pos.mpr (nonempty p (List.mem_of_find?_eq_some found))
    simp [long]

variable (pairs) in
-- What the second loop holds once the ids below `k` are laid out, in a blob of `total` bytes.
structure Laid (total k : Nat) (acc : ByteString × List Nat × Nat) : Prop where
  length : acc.1.length = total
  laid : acc.1.take (offset pairs k) = ((List.range k).map (chunk pairs)).flatten
  off : acc.2.1 = (List.range k).map fun j => offset pairs j % 2 ^ 32
  pos : acc.2.2 = offset pairs k

theorem layout_laid (nonempty : ∀ p ∈ pairs, p.1 ≠ []) {size k : Nat} (le : k ≤ size) :
    Laid pairs (offset pairs size) k ((List.range k).foldl (layoutStep pairs ((List.range size).map (firstLen pairs)))
      (List.replicate (offset pairs size) 0, [], 0)) := by
  induction k with
  | zero => exact ⟨by simp, by simp [offset], rfl, rfl⟩
  | succ k ih =>
    rw [List.range_succ, List.foldl_append, List.foldl_cons, List.foldl_nil, layoutStep_eq nonempty (by omega)]
    generalize (List.range k).foldl _ _ = acc at ih ⊢
    obtain ⟨length, laid, off, pos⟩ := ih (by omega)
    rw [pos]
    obtain ⟨length', laid'⟩ := copyInto_laid laid
      (by rw [length_chunk, ← offset_succ, length]; exact offset_mono le)
    refine ⟨length'.trans length, ?_, by rw [off, List.range_succ, List.map_append]; rfl, (offset_succ k).symm⟩
    rw [offset_succ, ← length_chunk, laid', List.range_succ, List.map_append, List.flatten_append]
    simp

theorem take_flatten_chunks {size j : Nat} (le : j ≤ size) :
    ((List.range size).map (chunk pairs)).flatten.take (offset pairs j) = ((List.range j).map (chunk pairs)).flatten := by
  have split : List.range size = List.range j ++ (List.range size).drop j := by
    nth_rewrite 1 [← List.take_append_drop j (List.range size)]
    rw [List.take_range, min_eq_left le]
  rw [split, List.map_append, List.flatten_append, List.take_left']
  simp [offset, Function.comp_def, length_chunk]

end Laying

section Refinement

variable {pairs : List (ByteString × Rank)}

theorem firstBytes_of_absent {i : Nat} (absent : ∀ p ∈ pairs, p.2.toNat ≠ i) : firstBytes pairs i = none := by
  simp only [firstBytes, Option.map_eq_none', List.find?_eq_none, decide_eq_true_eq]
  exact absent

theorem newArenaStore_laid (nonempty : ∀ p ∈ pairs, p.1 ≠ []) (short : ∀ p ∈ pairs, p.1.length < 2 ^ 32) {size : Nat}
    (sized : (maxID pairs).toNat + 1 = size) :
    (newArenaStore pairs).blob.take (offset pairs size) = ((List.range size).map (chunk pairs)).flatten ∧
      (newArenaStore pairs).off = (List.range (size + 1)).map fun j => offset pairs j % 2 ^ 32 := by
  have room : ∀ p ∈ pairs, p.2.toNat < size := fun p mem => sized ▸ Nat.lt_succ_of_le (le_maxID mem)
  obtain ⟨-, laid, off, pos⟩ := layout_laid nonempty (le_refl size)
  simp only [newArenaStore, sized, arenaLens_eq nonempty short room]
  exact ⟨laid, by rw [off, pos, List.range_succ, List.map_append]; rfl⟩

theorem slice_chunk {blob : ByteString} {size i : Nat} (inside : i < size)
    (laid : blob.take (offset pairs size) = ((List.range size).map (chunk pairs)).flatten) :
    slice blob (offset pairs i) (offset pairs (i + 1)) = chunk pairs i := by
  have upto : blob.take (offset pairs (i + 1)) = ((List.range i).map (chunk pairs)).flatten ++ chunk pairs i := by
    have within := List.take_take (offset pairs (i + 1)) (offset pairs size) blob
    rw [min_eq_left (offset_mono inside)] at within
    rw [← within, laid, take_flatten_chunks inside, List.range_succ,
      List.map_append, List.flatten_append]
    simp
  rw [slice, ← List.drop_take, upto, List.drop_left']
  simp [offset, Function.comp_def, length_chunk]

theorem arenaAppendInto_eq (nonempty : ∀ p ∈ pairs, p.1 ≠ []) (fits : (pairs.map fun p => p.1.length).sum < 2 ^ 32)
    (dst : ByteString) (id : Rank) :
    arenaAppendInto (newArenaStore pairs) dst id =
      match assignFirst pairs Prod.snd Prod.fst id with
      | some b => (dst ++ b, true)
      | none => (dst, false) := by
  have short : ∀ p ∈ pairs, p.1.length < 2 ^ 32 := fun p mem =>
    lt_of_le_of_lt (List.single_le_sum (fun _ _ => Nat.zero_le _) _
      (List.mem_map_of_mem (fun p : ByteString × Rank => p.1.length) mem)) fits
  obtain ⟨size, sized⟩ : ∃ size, (maxID pairs).toNat + 1 = size := ⟨_, rfl⟩
  have room : ∀ p ∈ pairs, p.2.toNat < size := fun p mem => sized ▸ Nat.lt_succ_of_le (le_maxID mem)
  have total : offset pairs size < 2 ^ 32 := by
    have bound : (arenaLens pairs size).2 ≤ _ := arenaLens_total_le size
    rw [arenaLens_eq nonempty short room] at bound
    exact lt_of_le_of_lt bound fits
  obtain ⟨laid, off⟩ := newArenaStore_laid nonempty short sized
  rw [assignFirst_eq_firstBytes, arenaAppendInto, off]
  by_cases inside : id.toNat < size
  · have cut : ∀ j ≤ size, ((List.range (size + 1)).map fun j => offset pairs j % 2 ^ 32).getD j 0 = offset pairs j :=
      fun j le => by
        rw [getD_map_range _ (by omega), Nat.mod_eq_of_lt (lt_of_le_of_lt (offset_mono le) total)]
    rw [if_neg (by simp; omega), cut _ inside.le, cut _ inside, slice_chunk inside laid, offset_succ]
    unfold firstLen chunk
    cases found : firstBytes pairs id.toNat with
    | none => simp
    | some b =>
      obtain ⟨q, mem, rfl⟩ := firstBytes_mem found
      have long : 0 < q.1.length := List.length_pos.mpr (nonempty q mem)
      simp only [Option.map_some', Option.getD_some]
      rw [if_neg (by omega)]
  · rw [if_pos (by simp; omega), firstBytes_of_absent (i := id.toNat) fun p mem same => inside (same ▸ room p mem)]

def repeatedPairs : List (ByteString × Rank) := [(ascii "hi", 1), (ascii "bye", 1)]

theorem arenaAppendInto_eq_repeated :
    (∀ p ∈ repeatedPairs, p.1 ≠ []) ∧ (repeatedPairs.map fun p => p.1.length).sum < 2 ^ 32 ∧
      arenaAppendInto (newArenaStore repeatedPairs) (ascii "x") 1 =
        match assignFirst repeatedPairs Prod.snd Prod.fst 1 with
        | some b => (ascii "x" ++ b, true)
        | none => (ascii "x", false) :=
  have nonempty : ∀ p ∈ repeatedPairs, p.1 ≠ [] := by decide
  have fits : (repeatedPairs.map fun p => p.1.length).sum < 2 ^ 32 := by decide
  ⟨nonempty, fits, arenaAppendInto_eq nonempty fits _ _⟩

end Refinement

end TokenStore

end Harmony
