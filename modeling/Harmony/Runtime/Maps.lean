import Mathlib

set_option autoImplicit false

namespace Harmony

-- A Go map, as the entries a `range` loop over it visits, in that loop's order. Its keys are distinct.
structure GoMap (κ ν : Type) where
  entries : List (κ × ν)
  keys_nodup : (entries.map Prod.fst).Nodup

namespace GoMap

variable {κ ν : Type} [DecidableEq κ]

-- `v, ok := m[k]`
def get? (m : GoMap κ ν) (k : κ) : Option ν := (m.entries.find? (·.1 = k)).map Prod.snd

def keys (m : GoMap κ ν) : List κ := m.entries.map Prod.fst

theorem get?_of_mem (m : GoMap κ ν) {k : κ} {v : ν} (mem : (k, v) ∈ m.entries) : m.get? k = some v := by
  obtain ⟨pre, post, split⟩ := List.append_of_mem mem
  have distinct := m.keys_nodup
  rw [split, List.map_append, List.map_cons, List.nodup_append] at distinct
  have fresh : ∀ e ∈ pre, ¬ e.1 = k := fun e mem same =>
    distinct.2.2 (List.mem_map_of_mem Prod.fst mem) (by simp [same])
  rw [get?, split, List.find?_append, List.find?_eq_none.mpr (fun e mem => by simpa using fresh e mem)]
  simp

theorem get?_eq_none (m : GoMap κ ν) {k : κ} (absent : k ∉ m.keys) : m.get? k = none := by
  simp only [get?, Option.map_eq_none', List.find?_eq_none, decide_eq_true_eq]
  exact fun e mem same => absent (same ▸ List.mem_map_of_mem Prod.fst mem)

theorem mem_of_get? (m : GoMap κ ν) {k : κ} {v : ν} (found : m.get? k = some v) : (k, v) ∈ m.entries := by
  obtain ⟨⟨k', v⟩, hit, rfl⟩ := Option.map_eq_some'.mp found
  obtain rfl : k' = k := by simpa using List.find?_some hit
  exact List.mem_of_find?_eq_some hit

theorem mem_keys_iff (m : GoMap κ ν) {k : κ} : k ∈ m.keys ↔ ∃ v, m.get? k = some v := by
  constructor
  · intro mem
    obtain ⟨⟨k, v⟩, stored, rfl⟩ := List.mem_map.mp mem
    exact ⟨v, m.get?_of_mem stored⟩
  · rintro ⟨v, found⟩
    exact List.mem_map_of_mem Prod.fst (m.mem_of_get? found)

theorem entries_perm {m m' : GoMap κ ν} (same : ∀ k, m.get? k = m'.get? k) : m.entries.Perm m'.entries := by
  rw [List.perm_ext_iff_of_nodup (m.keys_nodup.of_map _) (m'.keys_nodup.of_map _)]
  rintro ⟨k, v⟩
  exact ⟨fun mem => mem_of_get? _ (same k ▸ get?_of_mem m mem),
    fun mem => mem_of_get? _ ((same k).symm ▸ get?_of_mem m' mem)⟩

end GoMap

theorem foldl_assign_untouched {ε κ ν : Type} {es : List ε} {key : ε → κ} {k : κ}
    (step : Option ν → ε → Option ν) (keeps : ∀ acc e, key e ≠ k → step acc e = acc)
    (absent : ∀ e ∈ es, key e ≠ k) (acc : Option ν) :
    es.foldl step acc = acc := by
  induction es generalizing acc with
  | nil => rfl
  | cons e rest ih =>
    rw [List.foldl_cons, keeps acc e (absent e (List.mem_cons_self _ _))]
    exact ih (fun e mem => absent e (List.mem_cons_of_mem _ mem)) acc

section Assign

variable {ε κ ν : Type} [DecidableEq κ] (es : List ε) (key : ε → κ) (val : ε → ν)

-- `for _, e := range es { m[key(e)] = val(e) }`, then `m[k]`: the last assignment to `k` wins.
def assignLast (k : κ) : Option ν :=
  es.foldl (fun acc e => if key e = k then some (val e) else acc) none

-- `for _, e := range es { if m[key(e)] == nil { m[key(e)] = val(e) } }`, then `m[k]`: the first wins.
def assignFirst (k : κ) : Option ν :=
  es.foldl (fun acc e => if key e = k ∧ acc.isNone then some (val e) else acc) none

variable {es key val}

theorem assignLast_of_absent {k : κ} (absent : ∀ e ∈ es, key e ≠ k) : assignLast es key val k = none :=
  foldl_assign_untouched _ (fun _ _ other => if_neg other) absent none

theorem assignFirst_of_absent {k : κ} (absent : ∀ e ∈ es, key e ≠ k) : assignFirst es key val k = none :=
  foldl_assign_untouched _ (fun _ _ other => if_neg (fun both => other both.1)) absent none

theorem assign_of_mem (distinct : (es.map key).Nodup) {e : ε} (mem : e ∈ es) :
    assignLast es key val (key e) = some (val e) ∧ assignFirst es key val (key e) = some (val e) := by
  obtain ⟨pre, post, split⟩ := List.append_of_mem mem
  rw [split, List.map_append, List.map_cons, List.nodup_append] at distinct
  have before : ∀ x ∈ pre, key x ≠ key e := fun x mem same =>
    distinct.2.2 (List.mem_map_of_mem key mem) (by simp [same])
  have after : ∀ x ∈ post, key x ≠ key e := fun x mem same =>
    (List.nodup_cons.mp distinct.2.1).1 (same ▸ List.mem_map_of_mem key mem)
  constructor
  · rw [assignLast, split, List.foldl_append, List.foldl_cons, foldl_assign_untouched _
      (fun _ _ other => if_neg other) before, if_pos rfl,
      foldl_assign_untouched _ (fun _ _ other => if_neg other) after]
  · rw [assignFirst, split, List.foldl_append, List.foldl_cons, foldl_assign_untouched _
      (fun _ _ other => if_neg (fun both => other both.1)) before, if_pos ⟨rfl, rfl⟩,
      foldl_assign_untouched _ (fun _ _ other => if_neg (fun both => other both.1)) after]

theorem assignLast_filter (k : κ) : assignLast (es.filter (key · = k)) key val k = assignLast es key val k := by
  unfold assignLast
  generalize (none : Option ν) = acc
  induction es generalizing acc with
  | nil => rfl
  | cons e rest ih => by_cases same : key e = k <;> simp [List.filter_cons, same, ih]

theorem foldl_assignLast_sound {k : κ} {v : ν} :
    ∀ acc : Option ν, es.foldl (fun acc e => if key e = k then some (val e) else acc) acc = some v →
      acc = some v ∨ ∃ e ∈ es, key e = k ∧ val e = v := by
  induction es with
  | nil => exact fun acc same => .inl same
  | cons x rest ih =>
    intro acc run
    rw [List.foldl_cons] at run
    rcases ih _ run with here | later
    · split at here
      · exact .inr ⟨x, List.mem_cons_self _ _, by assumption, Option.some.inj here⟩
      · exact .inl here
    · obtain ⟨e, mem, rest⟩ := later
      exact .inr ⟨e, List.mem_cons_of_mem _ mem, rest⟩

theorem assignLast_sound {k : κ} {v : ν} (found : assignLast es key val k = some v) :
    ∃ e ∈ es, key e = k ∧ val e = v := by
  rcases foldl_assignLast_sound none found with absurd | found
  · cases absurd
  · exact found

theorem foldl_assignLast_isSome {k : κ} :
    ∀ acc : Option ν, acc.isSome ∨ (∃ e ∈ es, key e = k) →
      (es.foldl (fun acc e => if key e = k then some (val e) else acc) acc).isSome := by
  induction es with
  | nil => rintro acc (held | ⟨_, ⟨⟩, _⟩); exact held
  | cons x rest ih =>
    rintro acc held
    rw [List.foldl_cons]
    apply ih
    by_cases same : key x = k
    · exact .inl (by simp [same])
    · rw [if_neg same]
      rcases held with held | ⟨e, mem, named⟩
      · exact .inl held
      · rcases List.mem_cons.mp mem with rfl | later
        · exact absurd named same
        · exact .inr ⟨e, later, named⟩

theorem assignLast_isSome {k : κ} (named : ∃ e ∈ es, key e = k) : (assignLast es key val k).isSome :=
  foldl_assignLast_isSome none (.inr named)

end Assign

end Harmony
