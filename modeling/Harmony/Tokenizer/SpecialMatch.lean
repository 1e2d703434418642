import Harmony.Tokenizer.Core

set_option autoImplicit false

namespace Harmony

namespace CoreBPE

section Scan

variable (s : ByteString) (i : Nat) (allowed : List ByteString)

def Readable (lit : ByteString) : Prop := lit ∈ allowed ∧ lit <+: s.drop i

instance (lit : ByteString) : Decidable (Readable s i allowed lit) :=
  inferInstanceAs (Decidable (lit ∈ allowed ∧ lit <+: s.drop i))

-- `(id, maxLen)` after the entries `es`: `maxLen` bounds every readable literal among them and, unless it is
-- 0, is the length of one of them, whose id is `id`.
structure Longest (es : List (ByteString × Rank)) (acc : Rank × Nat) : Prop where
  bound : ∀ e ∈ es, Readable s i allowed e.1 → e.1.length ≤ acc.2
  attained : acc.2 = 0 ∨ ∃ e ∈ es, Readable s i allowed e.1 ∧ e.1.length = acc.2 ∧ e.2 = acc.1

variable {s i allowed}

theorem slice_eq_iff_prefix (lit : ByteString) : slice s i (i + lit.length) = lit ↔ lit <+: s.drop i := by
  rw [slice, Nat.add_sub_cancel_left, List.prefix_iff_eq_take, eq_comm]

theorem not_prefix_of_long {lit : ByteString} (long : lit.length > s.length - i) : ¬ lit <+: s.drop i :=
  fun read => by have := read.length_le; rw [List.length_drop] at this; omega

theorem Readable.eq_of_length {lit lit' : ByteString} (read : Readable s i allowed lit)
    (read' : Readable s i allowed lit') (size : lit.length = lit'.length) : lit = lit' :=
  calc lit = (s.drop i).take lit.length := List.prefix_iff_eq_take.mp read.2
    _ = (s.drop i).take lit'.length := by rw [size]
    _ = lit' := (List.prefix_iff_eq_take.mp read'.2).symm

variable (s i allowed) in
theorem matchSpecialStep_eq (acc : Rank × Nat) (e : ByteString × Rank) :
    matchSpecialStep s i allowed acc e =
      if Readable s i allowed e.1 ∧ e.1.length > acc.2 then (e.2, e.1.length) else acc := by
  unfold matchSpecialStep Readable
  by_cases listed : e.1 ∈ allowed
  · by_cases long : e.1.length > s.length - i
    · simp [listed, long, not_prefix_of_long long]
    · simp [listed, long, slice_eq_iff_prefix]
  · simp [listed]

theorem longest_nil : Longest s i allowed [] (0, 0) := ⟨fun _ mem => absurd mem (List.not_mem_nil _), .inl rfl⟩

theorem Longest.step {es : List (ByteString × Rank)} {acc : Rank × Nat} (longest : Longest s i allowed es acc)
    (e : ByteString × Rank) : Longest s i allowed (es ++ [e]) (matchSpecialStep s i allowed acc e) := by
  rw [matchSpecialStep_eq]
  split_ifs with better
  · refine ⟨fun x mem read => ?_, .inr ⟨e, List.mem_append_right _ (List.mem_singleton_self _), better.1, rfl, rfl⟩⟩
    rcases List.mem_append.mp mem with old | new
    · exact (longest.bound x old read).trans better.2.le
    · obtain rfl := List.mem_singleton.mp new
      exact le_rfl
  · refine ⟨fun x mem read => ?_, ?_⟩
    · rcases List.mem_append.mp mem with old | new
      · exact longest.bound x old read
      · obtain rfl := List.mem_singleton.mp new
        exact not_lt.mp fun longer => better ⟨read, longer⟩
    · rcases longest.attained with zero | ⟨x, mem, read, size, id⟩
      · exact .inl zero
      · exact .inr ⟨x, List.mem_append_left _ mem, read, size, id⟩

theorem Longest.foldl {pre : List (ByteString × Rank)} {acc : Rank × Nat} (longest : Longest s i allowed pre acc)
    (es : List (ByteString × Rank)) :
    Longest s i allowed (pre ++ es) (es.foldl (matchSpecialStep s i allowed) acc) := by
  induction es generalizing pre acc with
  | nil => simpa using longest
  | cons e es ih =>
    rw [List.foldl_cons, List.append_cons]
    exact ih (longest.step e)

end Scan

variable (b : CoreBPE)

theorem matchSpecialAt_cases (s : ByteString) (i : Nat) (allowed : List ByteString) :
    ((∀ lit ∈ b.specialEnc.keys, Readable s i allowed lit → lit = []) ∧ b.matchSpecialAt s i allowed = (0, 0)) ∨
      ∃ lit id, Readable s i allowed lit ∧ lit ≠ [] ∧ b.specialEnc.get? lit = some id ∧
        b.matchSpecialAt s i allowed = (id, lit.length) ∧
        ∀ lit' ∈ b.specialEnc.keys, Readable s i allowed lit' → lit'.length ≤ lit.length := by
  have longest : Longest s i allowed b.specialEnc.entries
      (b.specialEnc.entries.foldl (matchSpecialStep s i allowed) (0, 0)) := by
    simpa using longest_nil.foldl b.specialEnc.entries
  unfold matchSpecialAt
  generalize b.specialEnc.entries.foldl (matchSpecialStep s i allowed) (0, 0) = best at longest ⊢
  have bound : ∀ lit ∈ b.specialEnc.keys, Readable s i allowed lit → lit.length ≤ best.2 := by
    intro lit mem read
    obtain ⟨e, entry, rfl⟩ := List.mem_map.mp mem
    exact longest.bound e entry read
  dsimp only
  split_ifs with nothing
  · exact .inl ⟨fun lit mem read => List.length_eq_zero.mp (by have := bound lit mem read; omega), rfl⟩
  · rcases longest.attained with zero | ⟨e, entry, read, size, id⟩
    · exact absurd zero nothing
    · refine .inr ⟨e.1, e.2, read, fun empty => nothing (by rw [← size, empty]; rfl),
        b.specialEnc.get?_of_mem entry, Prod.ext id.symm size.symm, fun lit mem read' => size ▸ bound lit mem read'⟩

theorem matchSpecialAt_of_members {allowed allowed' : List ByteString} (members : ∀ lit, lit ∈ allowed' ↔ lit ∈ allowed)
    (s : ByteString) (i : Nat) : b.matchSpecialAt s i allowed' = b.matchSpecialAt s i allowed := by
  have step : matchSpecialStep s i allowed' = matchSpecialStep s i allowed := by
    funext acc e
    simp only [matchSpecialStep, members]
  simp only [matchSpecialAt, step]

theorem matchSpecialAt_of_lookups {m : GoMap ByteString Rank} (same : ∀ lit, m.get? lit = b.specialEnc.get? lit)
    (s : ByteString) (i : Nat) (allowed : List ByteString) :
    { b with specialEnc := m }.matchSpecialAt s i allowed = b.matchSpecialAt s i allowed := by
  have known : ∀ {lit id}, m.get? lit = some id → lit ∈ b.specialEnc.keys :=
    fun key => b.specialEnc.mem_keys_iff.mpr ⟨_, (same _).symm.trans key⟩
  have known' : ∀ {lit id}, b.specialEnc.get? lit = some id → lit ∈ m.keys :=
    fun key => m.mem_keys_iff.mpr ⟨_, (same _).trans key⟩
  rcases b.matchSpecialAt_cases s i allowed with ⟨none, found⟩ | ⟨lit, id, read, named, key, found, longest⟩ <;>
    rcases matchSpecialAt_cases { b with specialEnc := m } s i allowed with
      ⟨none', found'⟩ | ⟨lit', id', read', named', key', found', longest'⟩
  · rw [found, found']
  · exact absurd (none lit' (known key') read') named'
  · exact absurd (none' lit (known' key) read) named
  · obtain rfl := read'.eq_of_length read (le_antisymm (longest lit' (known key') read') (longest' lit (known' key) read))
    obtain rfl : id' = id := Option.some.inj (key'.symm.trans ((same lit').trans key))
    rw [found, found']

theorem encodeLoop_of_lookups {m : GoMap ByteString Rank} (same : ∀ lit, m.get? lit = b.specialEnc.get? lit)
    {allowed allowed' : List ByteString} (members : ∀ lit, lit ∈ allowed' ↔ lit ∈ allowed)
    (size : allowed'.length = allowed.length) (text : ByteString) (fuel i : Nat) (out : List Rank)
    (lastPieceLen : Nat) :
    { b with specialEnc := m }.encodeLoop text allowed' fuel i out lastPieceLen =
      b.encodeLoop text allowed fuel i out lastPieceLen := by
  induction fuel generalizing i out lastPieceLen with
  | zero => rfl
  | succ fuel ih =>
    simp only [encodeLoop, matchSpecialAt_of_members _ members, matchSpecialAt_of_lookups b same, size, ih]
    rfl

theorem matchSpecialAt_longest (s : ByteString) (i : Nat) (allowed : List ByteString) :
    (((∀ lit ∈ b.specialEnc.keys, lit ∈ allowed → lit <+: s.drop i → lit = []) ∧
          b.matchSpecialAt s i allowed = (0, 0)) ∨
        ∃ lit id, lit ∈ allowed ∧ lit <+: s.drop i ∧ lit ≠ [] ∧ b.specialEnc.get? lit = some id ∧
          b.matchSpecialAt s i allowed = (id, lit.length) ∧
          ∀ lit' ∈ b.specialEnc.keys, lit' ∈ allowed → lit' <+: s.drop i → lit'.length ≤ lit.length) ∧
      ∀ m : GoMap ByteString Rank, (∀ lit, m.get? lit = b.specialEnc.get? lit) →
        { b with specialEnc := m }.matchSpecialAt s i allowed = b.matchSpecialAt s i allowed ∧
        ∀ text, { b with specialEnc := m }.encode text allowed = b.encode text allowed ∧
          { b with specialEnc := m }.encodeWithSpecialTokens text = b.encodeWithSpecialTokens text := by
  refine ⟨?_, fun m same => ⟨b.matchSpecialAt_of_lookups same s i allowed, fun text => ⟨?_, ?_⟩⟩⟩
  · rcases b.matchSpecialAt_cases s i allowed with ⟨none, found⟩ | ⟨lit, id, read, named, key, found, longest⟩
    · exact .inl ⟨fun lit mem listed read => none lit mem ⟨listed, read⟩, found⟩
    · exact .inr ⟨lit, id, read.1, read.2, named, key, found, fun lit' mem listed read' => longest lit' mem ⟨listed, read'⟩⟩
  · exact b.encodeLoop_of_lookups same (fun _ => Iff.rfl) rfl text text.length 0 [] 0
  · have keys := (GoMap.entries_perm same).map Prod.fst
    exact congrArg Prod.fst (b.encodeLoop_of_lookups same (fun _ => keys.mem_iff) keys.length_eq text text.length 0 [] 0)

def emptyLiteral : GoMap ByteString Rank := ⟨[([], 7)], by decide⟩

theorem matchSpecialAt_skips_empty :
    emptyLiteral.keys = [[]] ∧ emptyLiteral.get? [] = some 7 ∧ ([] : ByteString) <+: (ascii "a").drop 0 ∧
      (newCoreBPE [] emptyLiteral fun _ i => i + 1).matchSpecialAt (ascii "a") 0 [[]] = (0, 0) :=
  ⟨rfl, rfl, List.nil_prefix, rfl⟩

end CoreBPE

end Harmony
