import Harmony.Runtime.Strings

set_option autoImplicit false

namespace Harmony

open Strings

theorem byteAt_drop (s : ByteString) (q j : Nat) : byteAt (s.drop q) j = byteAt s (q + j) := by
  simp [byteAt, List.getD_eq_getElem?_getD, List.getElem?_drop]

namespace Utf8

def continuation (b : UInt8) : Prop := 0x80 ≤ b.toNat ∧ b.toNat ≤ 0xBF

theorem runeStart_continuation {b : UInt8} (cont : continuation b) : runeStart b = false := by
  unfold continuation at cont
  simp only [runeStart, Bool.or_eq_false_iff, decide_eq_false_iff_not]
  omega

theorem decodeLead_continuation (s0 : UInt8) (rest : ByteString) {j : Nat}
    (inside : j + 1 < (decodeLead s0 rest).2) : continuation (byteAt rest j) := by
  unfold decodeLead at inside
  split at inside
  · simp at inside
  · rename_i sz lo hi lead
    have shape := leadRange_shape lead
    split at inside
    · simp at inside
    rcases rest with _ | ⟨s1, _ | ⟨s2, _ | ⟨s3, rest⟩⟩⟩ <;> dsimp only at inside
    all_goals (try split_ifs at inside)
    all_goals simp only [List.length_cons, List.length_nil] at *
    all_goals first | omega | skip
    all_goals (obtain _ | _ | _ | _ := j <;> simp only [byteAt_cons_zero, byteAt_cons_succ, continuation] <;> omega)

theorem decodeRuneInString_continuation (s : ByteString) {j : Nat} (pos : 0 < j)
    (inside : j < (decodeRuneInString s).2) : continuation (byteAt s j) := by
  rcases s with _ | ⟨b, rest⟩
  · simp at inside
  by_cases small : b < runeSelf
  · rw [decodeRuneInString_ascii rest small] at inside
    omega
  · rw [decodeRuneInString_lead rest small] at inside
    obtain ⟨j, rfl⟩ : ∃ k, j = k + 1 := ⟨j - 1, by omega⟩
    exact decodeLead_continuation b rest (by omega)

theorem runeStart_of_decode {b : UInt8} (rest : ByteString) (valid : (decodeRuneInString (b :: rest)).1 ≠ runeError) :
    runeStart b = true := by
  by_contra notStart
  simp only [runeStart, Bool.not_eq_true, Bool.or_eq_false_iff, decide_eq_false_iff_not] at notStart
  have large : ¬ b < runeSelf := by rw [byte_lt_iff]; show ¬ b.toNat < 128; omega
  have noLead : leadRange b = none := by simp only [leadRange, show b.toNat < 0xC2 by omega, if_true]
  simp [decodeRuneInString_lead rest large, decodeLead, noLead] at valid

theorem decodeRuneInString_pos (s : ByteString) (nonempty : s ≠ []) : 1 ≤ (decodeRuneInString s).2 := by
  obtain ⟨b, rest, rfl⟩ := List.exists_cons_of_ne_nil nonempty
  exact (decodeRuneInString_size b rest).1

-- The offsets at which `for i, r := range s` reads a rune.
inductive Boundary (s : ByteString) : Nat → Prop
  | start : Boundary s 0
  | next {q : Nat} : Boundary s q → q < s.length → Boundary s (q + (decodeRuneInString (s.drop q)).2)

theorem boundary_of_runeStart (s : ByteString) {p : Nat} (inside : p < s.length)
    (start : runeStart (byteAt s p) = true) : Boundary s p := by
  suffices reach : ∀ n q, p - q ≤ n → Boundary s q → q ≤ p → Boundary s p from
    reach p 0 (Nat.sub_le p 0) .start (Nat.zero_le p)
  intro n
  induction n with
  | zero => intro q gap bq qp; rwa [show p = q by omega]
  | succ n ih =>
    intro q gap bq qp
    rcases Nat.eq_or_lt_of_le qp with rfl | before
    · exact bq
    have size := decodeRuneInString_pos (s.drop q) (by simp; omega)
    have within : q + (decodeRuneInString (s.drop q)).2 ≤ p := by
      by_contra over
      have cont := decodeRuneInString_continuation (s.drop q) (j := p - q) (by omega) (by omega)
      rw [byteAt_drop, Nat.add_sub_cancel' qp] at cont
      rw [runeStart_continuation cont] at start
      exact Bool.false_ne_true start
    exact ih _ (by omega) (.next bq (by omega)) within

theorem decodeLead_append (s0 : UInt8) (rest t : ByteString) (cut : ∀ b ∈ t.head?, b < runeSelf) :
    decodeLead s0 (rest ++ t) = decodeLead s0 rest := by
  unfold decodeLead
  split
  · rfl
  · rename_i sz lo hi lead
    have shape := leadRange_shape lead
    rcases t with _ | ⟨c, t⟩
    · simp
    have small : c.toNat < 0x80 := cut c rfl
    rcases rest with _ | ⟨s1, _ | ⟨s2, _ | ⟨s3, rest⟩⟩⟩ <;>
      simp only [List.cons_append, List.nil_append, List.length_cons, List.length_append, List.length_nil] <;>
      split_ifs <;> first | rfl | omega

theorem decodeRuneInString_append (s t : ByteString) (nonempty : s ≠ []) (cut : ∀ b ∈ t.head?, b < runeSelf) :
    decodeRuneInString (s ++ t) = decodeRuneInString s := by
  obtain ⟨b, rest, rfl⟩ := List.exists_cons_of_ne_nil nonempty
  by_cases small : b < runeSelf
  · rw [List.cons_append, decodeRuneInString_ascii _ small, decodeRuneInString_ascii _ small]
  · rw [List.cons_append, decodeRuneInString_lead _ small, decodeRuneInString_lead _ small, decodeLead_append _ _ _ cut]

theorem decodeLastRuneInString_cases (s : ByteString) (nonempty : s ≠ []) :
    (byteAt s (s.length - 1) < runeSelf ∧ decodeLastRuneInString s = ((byteAt s (s.length - 1)).toNat, 1)) ∨
      (¬ byteAt s (s.length - 1) < runeSelf ∧
        lastRuneStart s + (decodeRuneInString (s.drop (lastRuneStart s))).2 ≠ s.length ∧
        decodeLastRuneInString s = (runeError, 1)) ∨
      (¬ byteAt s (s.length - 1) < runeSelf ∧
        lastRuneStart s + (decodeRuneInString (s.drop (lastRuneStart s))).2 = s.length ∧
        decodeLastRuneInString s = decodeRuneInString (s.drop (lastRuneStart s))) := by
  have len : s.length ≠ 0 := by simpa using nonempty
  simp only [decodeLastRuneInString, if_neg len]
  split_ifs with small mismatch
  · exact .inl ⟨small, rfl⟩
  · exact .inr (.inl ⟨small, mismatch, rfl⟩)
  · exact .inr (.inr ⟨small, not_not.mp mismatch, rfl⟩)

theorem decodeLastRuneInString_reach (s : ByteString) (nonempty : s ≠ []) :
    (byteAt s (s.length - (decodeLastRuneInString s).2) < runeSelf →
        s.length ≤ s.length - (decodeLastRuneInString s).2 + 1) ∧
      (runeSelf ≤ byteAt s (s.length - (decodeLastRuneInString s).2) →
        s.length ≤ s.length - (decodeLastRuneInString s).2 +
          (decodeRuneInString (s.drop (s.length - (decodeLastRuneInString s).2))).2) := by
  have len : 0 < s.length := List.length_pos.mpr nonempty
  rcases decodeLastRuneInString_cases s nonempty with ⟨small, last⟩ | ⟨_, _, last⟩ | ⟨_, whole, last⟩ <;>
    rw [last]
  · dsimp only
    refine ⟨fun _ => by omega, fun large => absurd small ?_⟩
    rw [byte_le_iff] at large
    rw [byte_lt_iff]
    omega
  · dsimp only
    refine ⟨fun _ => by omega, fun _ => ?_⟩
    have size := decodeRuneInString_pos (s.drop (s.length - 1)) (by simp; omega)
    omega
  · rw [show s.length - (decodeRuneInString (s.drop (lastRuneStart s))).2 = lastRuneStart s by omega]
    refine ⟨fun ascii => ?_, fun _ => by omega⟩
    by_cases within : lastRuneStart s < s.length
    · rw [byteAt_eq_head s _ within, decodeRuneInString_ascii _ ascii] at whole
      omega
    · omega

end Utf8

open Utf8

namespace Strings

theorem stop_of_indexRune_none (stop : Nat → Bool) (s : ByteString) (missing : indexRune stop s = none) {q : Nat}
    (bq : Boundary s q) (inside : q < s.length) : stop (decodeRuneInString (s.drop q)).1 = false := by
  have reach : ∃ fuel, s.length - q ≤ fuel ∧ indexRuneFrom stop s fuel q = none := by
    clear inside
    induction bq with
    | start => exact ⟨s.length, by omega, missing⟩
    | @next q _ lt ih =>
      obtain ⟨_ | fuel, enough, none_⟩ := ih
      · omega
      rw [indexRuneFrom, if_neg (by omega)] at none_
      split at none_
      · cases none_
      · exact ⟨fuel, by have := decodeRuneInString_pos (s.drop q) (by simp; omega); omega, none_⟩
  obtain ⟨_ | fuel, enough, none_⟩ := reach
  · omega
  rw [indexRuneFrom, if_neg (by omega)] at none_
  by_cases hit : stop (decodeRuneInString (s.drop q)).1
  · rw [if_pos hit] at none_
    cases none_
  · exact Bool.eq_false_iff.mpr hit

theorem indexRuneFrom_cons (stop : Nat → Bool) (c : UInt8) (s : ByteString) (fuel i : Nat) :
    indexRuneFrom stop (c :: s) fuel (i + 1) = (indexRuneFrom stop s fuel i).map (· + 1) := by
  induction fuel generalizing i with
  | zero => rfl
  | succ fuel ih =>
    simp only [indexRuneFrom, List.length_cons, List.drop_succ_cons, Nat.add_le_add_iff_right]
    split_ifs <;> simp [← ih, Nat.add_right_comm]

theorem indexRune_cons_ascii (stop : Nat → Bool) {c : UInt8} (small : c < runeSelf) (skip : stop c.toNat = false)
    (s : ByteString) : indexRune stop (c :: s) = (indexRune stop s).map (· + 1) := by
  simp only [indexRune, List.length_cons, indexRuneFrom, Nat.le_zero, Nat.add_one_ne_zero, if_false,
    List.drop_zero, decodeRuneInString_ascii s small, skip, Bool.false_eq_true, Nat.zero_add]
  exact indexRuneFrom_cons stop c s s.length 0

theorem indexRune_head (stop : Nat → Bool) (s : ByteString) (nonempty : s ≠ [])
    (hit : stop (decodeRuneInString s).1 = true) : indexRune stop s = some 0 := by
  obtain ⟨b, rest, rfl⟩ := List.exists_cons_of_ne_nil nonempty
  simp [indexRune, indexRuneFrom, hit]

theorem findIdx?_skip {p : UInt8 → Bool} (t : ByteString) (w : Nat) (fits : w ≤ t.length)
    (skipped : ∀ j < w, p (byteAt t j) = false) : t.findIdx? p = ((t.drop w).findIdx? p).map (· + w) := by
  induction w generalizing t with
  | zero => simp
  | succ w ih =>
    obtain ⟨b, t, rfl⟩ := List.exists_cons_of_length_pos (by omega : 0 < t.length)
    have first : p b = false := skipped 0 (by omega)
    rw [List.findIdx?_cons, first, if_neg Bool.false_ne_true, List.findIdx?_start_succ,
      ih t (by simpa using fits) (fun j lt => skipped (j + 1) (by omega))]
    simp [Option.map_map, Function.comp_def, Nat.add_assoc, Nat.add_comm 1]

theorem indexRune_ascii (stop : Nat → Bool) (asciiOnly : ∀ r, stop r = true → r < 0x80) (s : ByteString) :
    indexRune stop s = s.findIdx? fun b => stop b.toNat := by
  suffices loop : ∀ fuel i, s.length - i ≤ fuel →
      indexRuneFrom stop s fuel i = ((s.drop i).findIdx? fun b => stop b.toNat).map (· + i) by
    simpa using loop s.length 0 (by omega)
  intro fuel
  induction fuel with
  | zero => intro i enough; simp [indexRuneFrom, List.drop_eq_nil_of_le (by omega : s.length ≤ i)]
  | succ fuel ih =>
    intro i enough
    by_cases done : s.length ≤ i
    · simp [indexRuneFrom, done, List.drop_eq_nil_of_le done]
    have head := byteAt_eq_head s i (by omega)
    rw [indexRuneFrom, if_neg done]
    by_cases small : byteAt s i < runeSelf
    · rw [head, decodeRuneInString_ascii _ small, List.findIdx?_cons]
      by_cases hit : stop (byteAt s i).toNat
      · simp [hit]
      · rw [if_neg hit, if_neg hit, ih (i + 1) (by omega), List.findIdx?_start_succ, Option.map_map]
        congr 1
        funext k
        simp only [Function.comp_apply]
        omega
    · have high := decodeRuneInString_rune_ge (s.drop (i + 1)) small
      rw [← head] at high
      have pass : stop (decodeRuneInString (s.drop i)).1 = false :=
        Bool.eq_false_iff.mpr fun hit => absurd (asciiOnly _ hit) (by omega)
      have size := decodeRuneInString_size (byteAt s i) (s.drop (i + 1))
      rw [← head] at size
      rw [if_neg (by simp [pass]), ih (i + (decodeRuneInString (s.drop i)).2) (by omega),
        findIdx?_skip (s.drop i) (decodeRuneInString (s.drop i)).2 (by simp at size ⊢; omega)]
      · simp only [List.drop_drop, Option.map_map]
        congr 1
        funext k
        simp only [Function.comp_apply]
        omega
      · intro j lt
        apply Bool.eq_false_iff.mpr
        intro hit
        have ascii := asciiOnly _ hit
        rcases Nat.eq_zero_or_pos j with rfl | pos
        · rw [byteAt_drop, Nat.add_zero] at ascii
          exact small (by rw [byte_lt_iff]; exact ascii)
        · have cont := decodeRuneInString_continuation (s.drop i) pos lt
          unfold continuation at cont
          omega

theorem indexRune_spaces (stop : Nat → Bool) (skip : stop 0x20 = false) (n : Nat) (s : ByteString) :
    indexRune stop (List.replicate n 0x20 ++ s) = (indexRune stop s).map (· + n) := by
  induction n with
  | zero => simp
  | succ n ih =>
    rw [List.replicate_succ, List.cons_append, indexRune_cons_ascii stop (show (0x20 : UInt8) < runeSelf by decide) skip,
      ih, Option.map_map]
    congr 1

theorem trimLeftFunc_spaces (U : UnicodeTables) (n : Nat) (s : ByteString)
    (first : s = [] ∨ isSpace U (decodeRuneInString s).1 = false) :
    trimLeftFunc (isSpace U) (List.replicate n 0x20 ++ s) = s := by
  unfold trimLeftFunc
  rw [indexRune_spaces _ (by simp [isSpace]) n s]
  rcases first with rfl | solid
  · rfl
  by_cases empty : s = []
  · subst empty; rfl
  rw [indexRune_head _ s empty (by simp [solid])]
  simp

theorem trimRightFunc_solid (f : Nat → Bool) (s : ByteString)
    (last : s = [] ∨ f (decodeLastRuneInString s).1 = false) : trimRightFunc f s = s := by
  rcases last with rfl | last
  · rfl
  by_cases empty : s = []
  · subst empty; rfl
  have reach := decodeLastRuneInString_reach s empty
  obtain ⟨n, len⟩ : ∃ n, s.length = n + 1 := ⟨s.length - 1, by have := List.length_pos.mpr empty; omega⟩
  unfold trimRightFunc
  rw [len, lastIndexNotFrom, if_neg (Nat.succ_ne_zero n), ← len, List.take_length, if_pos last]
  dsimp only
  split_ifs with large
  · exact List.take_of_length_le (reach.2 large)
  · exact List.take_of_length_le (reach.1 (by rw [byte_le_iff] at large; rw [byte_lt_iff]; omega))

theorem trimSpace_spaces (U : UnicodeTables) (n : Nat) (s : ByteString)
    (first : s = [] ∨ isSpace U (decodeRuneInString s).1 = false)
    (last : s = [] ∨ isSpace U (decodeLastRuneInString s).1 = false) :
    trimSpace U (List.replicate n 0x20 ++ s) = s := by
  rw [trimSpace, trimLeftFunc_spaces U n s first, trimRightFunc_solid _ s last]

theorem isSpace_runeError (U : UnicodeTables) : isSpace U runeError = false := by
  simp [isSpace, runeError, U.whiteSpace_runeError]

theorem isSpace_decodeRuneInString (U : UnicodeTables) (word t : ByteString) (nonempty : word ≠ [])
    (solid : indexRune (isSpace U) word = none) (cut : ∀ b ∈ t.head?, b < runeSelf) :
    isSpace U (decodeRuneInString (word ++ t)).1 = false := by
  rw [decodeRuneInString_append word t nonempty cut]
  simpa using stop_of_indexRune_none _ word solid .start (List.length_pos.mpr nonempty)

theorem isSpace_decodeLastRuneInString (U : UnicodeTables) (pre word : ByteString)
    (cut : ∀ b ∈ pre.getLast?, b < runeSelf) (nonempty : word ≠ []) (solid : indexRune (isSpace U) word = none) :
    isSpace U (decodeLastRuneInString (pre ++ word)).1 = false := by
  have wordPos : 0 < word.length := List.length_pos.mpr nonempty
  have len : (pre ++ word).length = pre.length + word.length := List.length_append pre word
  have inWord : ∀ j, pre.length ≤ j → byteAt (pre ++ word) j = byteAt word (j - pre.length) :=
    fun j le => List.getD_append_right pre word 0 j le
  have dropWord : ∀ j, pre.length ≤ j → (pre ++ word).drop j = word.drop (j - pre.length) := by
    intro j le
    rw [List.drop_append_eq_append_drop, List.drop_eq_nil_of_le le, List.nil_append]
  rcases decodeLastRuneInString_cases (pre ++ word) (by simp [nonempty]) with
    ⟨small, decoded⟩ | ⟨_, _, decoded⟩ | ⟨_, mismatch, decoded⟩ <;> rw [decoded]
  · have last := inWord _ (by omega : pre.length ≤ (pre ++ word).length - 1)
    rw [show (pre ++ word).length - 1 - pre.length = word.length - 1 by omega] at last
    rw [last] at small ⊢
    have bq := boundary_of_runeStart word (p := word.length - 1) (by omega)
      (by simp only [runeStart, Bool.or_eq_true, decide_eq_true_eq]; exact .inl small)
    have solidLast := stop_of_indexRune_none _ word solid bq (by omega)
    rwa [byteAt_eq_head word _ (by omega), decodeRuneInString_ascii _ small] at solidLast
  · exact isSpace_runeError U
  · set p := lastRuneStart (pre ++ word)
    by_cases err : (decodeRuneInString ((pre ++ word).drop p)).1 = runeError
    · rw [err]; exact isSpace_runeError U
    have within : p < (pre ++ word).length := by
      by_contra beyond
      rw [List.drop_eq_nil_of_le (not_lt.mp beyond)] at err
      exact err rfl
    have start := runeStart_of_decode _ (byteAt_eq_head _ p within ▸ err)
    have after : pre.length ≤ p := by
      by_contra before
      have lastPre : byteAt (pre ++ word) (pre.length - 1) < runeSelf := by
        rw [byteAt, List.getD_append pre word 0 _ (by omega)]
        apply cut
        rw [List.getLast?_eq_getElem?, List.getD_eq_getElem?_getD]
        have : pre.length - 1 < pre.length := by omega
        simp [this]
      rw [byte_lt_iff] at lastPre
      rcases Nat.lt_or_ge p (pre.length - 1) with inside | atLast
      · have cont := decodeRuneInString_continuation ((pre ++ word).drop p) (j := pre.length - 1 - p) (by omega)
          (by omega)
        rw [byteAt_drop, show p + (pre.length - 1 - p) = pre.length - 1 by omega] at cont
        unfold continuation at cont
        exact absurd lastPre (by show ¬ _ < 128; omega)
      · rw [show p = pre.length - 1 by omega, byteAt_eq_head _ _ (by omega),
          decodeRuneInString_ascii _ lastPre] at mismatch
        omega
    have bq := boundary_of_runeStart word (p := p - pre.length) (by omega) (by rwa [← inWord p after])
    have solidAt := stop_of_indexRune_none _ word solid bq (by omega)
    rwa [← dropWord p after] at solidAt

theorem not_mem_of_indexRune_none (stop : Nat → Bool) (s : ByteString) (missing : indexRune stop s = none)
    {c : UInt8} (small : c < runeSelf) (hit : stop c.toNat = true) : c ∉ s := by
  intro mem
  obtain ⟨j, inside, found⟩ := List.getElem_of_mem mem
  have at_ : byteAt s j = c := by rw [byteAt, List.getD_eq_getElem _ _ inside, found]
  have bq := boundary_of_runeStart s inside (by simp only [runeStart, at_, Bool.or_eq_true, decide_eq_true_eq]; exact .inl small)
  have pass := stop_of_indexRune_none stop s missing bq inside
  rw [byteAt_eq_head s j inside, at_, decodeRuneInString_ascii _ small, hit] at pass
  exact Bool.noConfusion pass

theorem beq_of_not_mem {a c : UInt8} {s : ByteString} (absent : a ∉ c :: s) : (a == c) = false := by
  simp only [beq_eq_false_iff_ne]
  rintro rfl
  exact absent (List.mem_cons_self a s)

theorem index_cons_of_mismatch {c : UInt8} {s sub : ByteString} (miss : sub.isPrefixOf (c :: s) = false) :
    index (c :: s) sub = (index s sub).map (· + 1) := by
  simp [index, miss]

theorem index_at_start {s sub : ByteString} (hit : sub <+: s) : index s sub = some 0 := by
  cases s with
  | nil => simp [index, List.prefix_nil.mp hit]
  | cons c s => simp [index, List.isPrefixOf_iff_prefix.mpr hit]

theorem index_append_of_not_mem {a : UInt8} {sub : ByteString} (first : sub.head? = some a) (pre s : ByteString)
    (absent : a ∉ pre) : index (pre ++ s) sub = (index s sub).map (· + pre.length) := by
  obtain ⟨sub, rfl⟩ := List.head?_eq_some_iff.mp first
  induction pre with
  | nil => simp
  | cons c pre ih =>
    rw [List.cons_append, index_cons_of_mismatch (by simp [List.isPrefixOf, beq_of_not_mem absent]),
      ih (fun mem => absent (List.mem_cons_of_mem c mem)), Option.map_map]
    congr 1

theorem index_of_not_mem {a : UInt8} {sub : ByteString} (first : sub.head? = some a) (s : ByteString)
    (absent : a ∉ s) : index s sub = none := by
  obtain ⟨sub, rfl⟩ := List.head?_eq_some_iff.mp first
  simpa [index] using index_append_of_not_mem first s [] absent

theorem replaceAllFrom_cons_of_mismatch (old new : ByteString) {c : UInt8} {s : ByteString}
    (miss : old.isPrefixOf (c :: s) = false) (fuel : Nat) :
    replaceAllFrom old new (fuel + 1) (c :: s) = c :: replaceAllFrom old new fuel s := by
  simp [replaceAllFrom, miss]

theorem replaceAllFrom_at_start (old new s : ByteString) (nonempty : old ≠ []) {fuel : Nat} (pos : 0 < fuel) :
    replaceAllFrom old new fuel (old ++ s) = new ++ replaceAllFrom old new (fuel - 1) s := by
  obtain ⟨a, old, rfl⟩ := List.exists_cons_of_ne_nil nonempty
  obtain ⟨fuel, rfl⟩ : ∃ f, fuel = f + 1 := ⟨fuel - 1, by omega⟩
  simp [replaceAllFrom, List.isPrefixOf_iff_prefix.mpr (List.prefix_append (a :: old) s)]

theorem replaceAllFrom_append_of_not_mem {a : UInt8} {old : ByteString} (first : old.head? = some a)
    (new pre s : ByteString) (absent : a ∉ pre) (fuel : Nat) (enough : pre.length ≤ fuel) :
    replaceAllFrom old new fuel (pre ++ s) = pre ++ replaceAllFrom old new (fuel - pre.length) s := by
  obtain ⟨old, rfl⟩ := List.head?_eq_some_iff.mp first
  induction pre generalizing fuel with
  | nil => simp
  | cons c pre ih =>
    obtain ⟨fuel, rfl⟩ : ∃ f, fuel = f + 1 := ⟨fuel - 1, by simp at enough; omega⟩
    rw [List.cons_append, replaceAllFrom_cons_of_mismatch _ _ (by simp [List.isPrefixOf, beq_of_not_mem absent]),
      ih (fun mem => absent (List.mem_cons_of_mem c mem)) fuel (by simp at enough; omega)]
    simp

theorem replaceAllFrom_of_not_mem {a : UInt8} {old : ByteString} (first : old.head? = some a) (new s : ByteString)
    (absent : a ∉ s) (fuel : Nat) : replaceAllFrom old new fuel s = s := by
  obtain ⟨old, rfl⟩ := List.head?_eq_some_iff.mp first
  induction s generalizing fuel with
  | nil => cases fuel <;> rfl
  | cons c s ih =>
    cases fuel with
    | zero => rfl
    | succ fuel =>
      rw [replaceAllFrom_cons_of_mismatch _ _ (by simp [List.isPrefixOf, beq_of_not_mem absent]),
        ih (fun mem => absent (List.mem_cons_of_mem c mem))]

theorem findIdx?_append_of_none {p : UInt8 → Bool} (pre s : ByteString) (skipped : ∀ b ∈ pre, p b = false) :
    (pre ++ s).findIdx? p = (s.findIdx? p).map (· + pre.length) := by
  rw [List.findIdx?_append, (List.findIdx?_eq_none_iff).mpr skipped, Option.none_or]

theorem indexByte_append_cons (pre s : ByteString) (c : UInt8) (absent : c ∉ pre) :
    indexByte (pre ++ c :: s) c = some pre.length := by
  rw [indexByte, findIdx?_append_of_none pre _ fun b mem => by
    simp only [beq_eq_false_iff_ne]
    rintro rfl
    exact absent mem]
  simp

theorem indexByte_of_not_mem (s : ByteString) (c : UInt8) (absent : c ∉ s) : indexByte s c = none :=
  (List.findIdx?_eq_none_iff).mpr fun b mem => by
    simp only [beq_eq_false_iff_ne]
    rintro rfl
    exact absent mem

end Strings

end Harmony
