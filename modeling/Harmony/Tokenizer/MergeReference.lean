import Harmony.Tokenizer.Merge

set_option autoImplicit false

namespace Harmony.Merge

variable (enc : ByteString → Option Rank)

-- The rank of each adjacent pair of parts, `none` where their concatenation is not a key.
def pairRanks : List ByteString → List (Option Rank)
  | a :: b :: rest => enc (a ++ b) :: pairRanks (b :: rest)
  | _ => []

-- One comparison of the scan for the lowest pair: a later pair wins only with a strictly smaller rank.
def pick : Option (Rank × Nat) → Nat → Option Rank → Option (Rank × Nat)
  | best, _, none => best
  | none, k, some r => some (r, k)
  | some (b, j), k, some r => if r < b then some (r, k) else some (b, j)

def lowestFrom : Option (Rank × Nat) → Nat → List (Option Rank) → Option (Rank × Nat)
  | best, _, [] => best
  | best, k, x :: rest => lowestFrom (pick best k x) (k + 1) rest

def lowestPair (parts : List ByteString) : Option Nat :=
  (lowestFrom none 0 (pairRanks enc parts)).map Prod.snd

-- Parts `j` and `j + 1` replaced by their concatenation.
def mergePair : List ByteString → Nat → List ByteString
  | a :: b :: rest, 0 => (a ++ b) :: rest
  | a :: rest, j + 1 => a :: mergePair rest j
  | parts, _ => parts

-- Where each part starts, counting from `n`, and where the last one ends.
def boundariesFrom (n : Nat) : List ByteString → List Nat
  | [] => [n]
  | p :: rest => n :: boundariesFrom (n + p.length) rest

def boundaries (parts : List ByteString) : List Nat := boundariesFrom 0 parts

@[simp] theorem length_pairRanks (parts : List ByteString) :
    (pairRanks enc parts).length = parts.length - 1 := by
  induction parts with
  | nil => rfl
  | cons a rest ih =>
    cases rest with
    | nil => rfl
    | cons b rest => simp only [pairRanks, List.length_cons, ih]; omega

theorem getElem?_pairRanks (parts : List ByteString) (k : Nat) :
    (pairRanks enc parts)[k]? =
      if k + 1 < parts.length then some (enc (parts.getD k [] ++ parts.getD (k + 1) [])) else none := by
  induction parts generalizing k with
  | nil => rfl
  | cons a rest ih =>
    cases rest with
    | nil => simp [pairRanks]
    | cons b rest =>
      cases k with
      | zero => simp [pairRanks]
      | succ k => simp [pairRanks, ih k]

theorem pick_index {best : Option (Rank × Nat)} {k : Nat} {x : Option Rank} {r : Rank} {j : Nat}
    (found : pick best k x = some (r, j)) : best = some (r, j) ∨ (j = k ∧ x = some r) := by
  cases x with
  | none => exact .inl (by cases best <;> exact found)
  | some x =>
    cases best with
    | none =>
      simp only [pick, Option.some.injEq, Prod.mk.injEq] at found
      exact .inr ⟨found.2.symm, by rw [found.1]⟩
    | some best =>
      obtain ⟨b, i⟩ := best
      simp only [pick] at found
      split at found
      · simp only [Option.some.injEq, Prod.mk.injEq] at found
        exact .inr ⟨found.2.symm, by rw [found.1]⟩
      · exact .inl found

theorem lowestFrom_index {best : Option (Rank × Nat)} {k : Nat} {rs : List (Option Rank)}
    {r : Rank} {j : Nat} (found : lowestFrom best k rs = some (r, j)) :
    best = some (r, j) ∨ (k ≤ j ∧ rs[j - k]? = some (some r)) := by
  induction rs generalizing best k with
  | nil => exact .inl found
  | cons x rest ih =>
    rcases ih found with picked | ⟨later, read⟩
    · rcases pick_index picked with earlier | ⟨rfl, rfl⟩
      · exact .inl earlier
      · exact .inr ⟨le_refl _, by simp⟩
    · refine .inr ⟨by omega, ?_⟩
      rw [show j - k = j - (k + 1) + 1 by omega]
      simpa using read

theorem lowestPair_key {parts : List ByteString} {j : Nat} (found : lowestPair enc parts = some j) :
    j + 1 < parts.length ∧ ∃ r, enc (parts.getD j [] ++ parts.getD (j + 1) []) = some r := by
  simp only [lowestPair, Option.map_eq_some'] at found
  obtain ⟨⟨r, _⟩, found, rfl⟩ := found
  rcases lowestFrom_index found with absurd | ⟨-, read⟩
  · cases absurd
  · rw [Nat.sub_zero, getElem?_pairRanks] at read
    split at read
    · exact ⟨by assumption, r, Option.some.inj read⟩
    · cases read

theorem lowestPair_lt {parts : List ByteString} {j : Nat} (found : lowestPair enc parts = some j) :
    j + 1 < parts.length :=
  (lowestPair_key enc found).1

theorem length_mergePair {parts : List ByteString} {j : Nat} (inside : j + 1 < parts.length) :
    (mergePair parts j).length = parts.length - 1 := by
  induction parts generalizing j with
  | nil => simp at inside
  | cons a rest ih =>
    cases j with
    | zero =>
      cases rest with
      | nil => simp at inside
      | cons b rest => simp [mergePair]
    | succ j =>
      cases rest with
      | nil => simp at inside
      | cons b rest =>
        simp only [List.length_cons] at inside ih ⊢
        rw [mergePair, List.length_cons, ih (by omega)]
        omega

-- The reference: while some adjacent pair concatenates to a key, merge the leftmost pair of
-- smallest rank.
def referenceMerge (parts : List ByteString) : List ByteString :=
  match found : lowestPair enc parts with
  | none => parts
  | some j =>
    have _inside := lowestPair_lt enc found
    referenceMerge (mergePair parts j)
termination_by parts.length
decreasing_by rw [length_mergePair _inside]; omega

theorem referenceMerge_of_none {parts : List ByteString} (found : lowestPair enc parts = none) :
    referenceMerge enc parts = parts := by
  conv_lhs => unfold referenceMerge
  split <;> simp_all

theorem referenceMerge_of_some {parts : List ByteString} {j : Nat}
    (found : lowestPair enc parts = some j) :
    referenceMerge enc parts = referenceMerge enc (mergePair parts j) := by
  conv_lhs => unfold referenceMerge
  split <;> simp_all

@[simp] theorem flatten_mergePair (parts : List ByteString) (j : Nat) :
    (mergePair parts j).flatten = parts.flatten := by
  induction parts generalizing j with
  | nil => rfl
  | cons a rest ih =>
    cases j with
    | zero => cases rest <;> simp [mergePair]
    | succ j => simp [mergePair, ih]

theorem mem_mergePair {parts : List ByteString} {j : Nat} {p : ByteString} (mem : p ∈ mergePair parts j) :
    p ∈ parts ∨ p = parts.getD j [] ++ parts.getD (j + 1) [] := by
  induction parts generalizing j with
  | nil => exact .inl mem
  | cons a rest ih =>
    cases j with
    | zero =>
      cases rest with
      | nil => exact .inl mem
      | cons b rest =>
        rcases List.mem_cons.mp mem with rfl | later
        · exact .inr rfl
        · exact .inl (List.mem_cons_of_mem _ (List.mem_cons_of_mem _ later))
    | succ j =>
      simp only [mergePair] at mem
      rcases List.mem_cons.mp mem with rfl | later
      · exact .inl (List.mem_cons_self _ _)
      · rcases ih later with old | merged
        · exact .inl (List.mem_cons_of_mem _ old)
        · exact .inr merged

theorem flatten_referenceMerge (parts : List ByteString) :
    (referenceMerge enc parts).flatten = parts.flatten := by
  induction parts using referenceMerge.induct enc with
  | case1 parts stop => rw [referenceMerge_of_none enc stop]
  | case2 parts j found _ ih => rw [referenceMerge_of_some enc found, ih, flatten_mergePair]

theorem referenceMerge_keys {parts : List ByteString} (keys : ∀ p ∈ parts, (enc p).isSome) :
    ∀ p ∈ referenceMerge enc parts, (enc p).isSome := by
  induction parts using referenceMerge.induct enc with
  | case1 parts stop => rwa [referenceMerge_of_none enc stop]
  | case2 parts j found _ ih =>
    rw [referenceMerge_of_some enc found]
    refine ih fun p mem => ?_
    rcases mem_mergePair mem with old | rfl
    · exact keys p old
    · obtain ⟨r, key⟩ := (lowestPair_key enc found).2
      rw [key]
      rfl

end Harmony.Merge
