import Mathlib

set_option autoImplicit false

namespace Harmony

-- Go strings and byte slices alike are sequences of bytes. Runes are `Nat`: they only ever come
-- out of decoding here, so they are never negative.
abbrev ByteString := List UInt8

-- Every literal of the source is ASCII.
def ascii (s : String) : ByteString := s.toList.map fun c => c.toNat.toUInt8

-- `s[j]`, read only where `j < len(s)`.
def byteAt (s : ByteString) (j : Nat) : UInt8 := s.getD j 0

-- `s[a:b]`. Go panics outside `a ≤ b ≤ len(s)`; the theorems about the loops show they stay inside.
def slice (s : ByteString) (a b : Nat) : ByteString := (s.drop a).take (b - a)

theorem byte_lt_iff {a b : UInt8} : a < b ↔ a.toNat < b.toNat := Iff.rfl

theorem byte_le_iff {a b : UInt8} : a ≤ b ↔ a.toNat ≤ b.toNat := Iff.rfl

theorem byte_eq_iff {a b : UInt8} : a = b ↔ a.toNat = b.toNat :=
  ⟨congrArg _, UInt8.toNat.inj⟩

@[simp] theorem byteAt_cons_zero (b : UInt8) (s : ByteString) : byteAt (b :: s) 0 = b := rfl

@[simp] theorem byteAt_cons_succ (b : UInt8) (s : ByteString) (j : Nat) :
    byteAt (b :: s) (j + 1) = byteAt s j := rfl

theorem byteAt_eq_head (s : ByteString) (j : Nat) (inside : j < s.length) :
    s.drop j = byteAt s j :: s.drop (j + 1) := by
  induction s generalizing j with
  | nil => simp at inside
  | cons b s ih =>
    cases j with
    | zero => rfl
    | succ j => simpa using ih j (by simpa using inside)

@[simp] theorem length_slice (s : ByteString) (a b : Nat) :
    (slice s a b).length = min (b - a) (s.length - a) := by
  simp [slice]

theorem slice_append (s : ByteString) {a b c : Nat} (ab : a ≤ b) (bc : b ≤ c) :
    slice s a b ++ slice s b c = slice s a c := by
  have split : c - a = (b - a) + (c - b) := by omega
  simp only [slice, split, List.take_add, List.drop_drop, Nat.add_comm a (b - a), Nat.sub_add_cancel ab]

theorem drop_eq_slice_append (s : ByteString) {i j : Nat} (ij : i ≤ j) :
    s.drop i = slice s i j ++ s.drop j := by
  conv_lhs => rw [← List.take_append_drop (j - i) (s.drop i)]
  rw [List.drop_drop, Nat.add_sub_cancel' ij, slice]

theorem slice_full (s : ByteString) : slice s 0 s.length = s := by
  simp [slice]

namespace Utf8

def runeSelf : UInt8 := 0x80

def runeError : Nat := 0xFFFD

-- The `first` and `acceptRanges` tables of `unicode/utf8`, for a byte at or above `RuneSelf`:
-- the length of the sequence it starts and the range the next byte must lie in.
def leadRange (s0 : UInt8) : Option (Nat × Nat × Nat) :=
  let b := s0.toNat
  if b < 0xC2 then none
  else if b ≤ 0xDF then some (2, 0x80, 0xBF)
  else if b = 0xE0 then some (3, 0xA0, 0xBF)
  else if b ≤ 0xEC then some (3, 0x80, 0xBF)
  else if b = 0xED then some (3, 0x80, 0x9F)
  else if b ≤ 0xEF then some (3, 0x80, 0xBF)
  else if b = 0xF0 then some (4, 0x90, 0xBF)
  else if b ≤ 0xF3 then some (4, 0x80, 0xBF)
  else if b = 0xF4 then some (4, 0x80, 0x8F)
  else none

theorem leadRange_shape {s0 : UInt8} {sz lo hi : Nat} (lead : leadRange s0 = some (sz, lo, hi)) :
    0xC2 ≤ s0.toNat ∧ s0.toNat ≤ 0xF4 ∧ 2 ≤ sz ∧ sz ≤ 4 ∧ 0x80 ≤ lo ∧ hi ≤ 0xBF ∧
      (sz = 2 → s0.toNat ≤ 0xDF) ∧ (sz = 3 → 0xE0 ≤ s0.toNat ∧ s0.toNat ≤ 0xEF) ∧
      (sz = 4 → 0xF0 ≤ s0.toNat) ∧ (s0.toNat = 0xE0 → lo = 0xA0) ∧ (s0.toNat = 0xF0 → lo = 0x90) := by
  dsimp only [leadRange] at lead
  split_ifs at lead <;> cases lead <;> omega

-- The sequence after a byte at or above `RuneSelf`, as `DecodeRuneInString` reads it.
-- The masked fields do not overlap, so `x&mask<<k | y` is written `x%m*2^k + y`.
def decodeLead (s0 : UInt8) (rest : ByteString) : Nat × Nat :=
  match leadRange s0 with
  | none => (runeError, 1)
  | some (sz, lo, hi) =>
    if rest.length + 1 < sz then (runeError, 1) else
    match rest with
    | [] => (runeError, 1)
    | s1 :: rest =>
      if s1.toNat < lo ∨ hi < s1.toNat then (runeError, 1)
      else if sz ≤ 2 then (s0.toNat % 0x20 * 0x40 + s1.toNat % 0x40, 2) else
      match rest with
      | [] => (runeError, 1)
      | s2 :: rest =>
        if s2.toNat < 0x80 ∨ 0xBF < s2.toNat then (runeError, 1)
        else if sz ≤ 3 then
          (s0.toNat % 0x10 * 0x1000 + s1.toNat % 0x40 * 0x40 + s2.toNat % 0x40, 3) else
        match rest with
        | [] => (runeError, 1)
        | s3 :: _ =>
          if s3.toNat < 0x80 ∨ 0xBF < s3.toNat then (runeError, 1)
          else (s0.toNat % 0x08 * 0x40000 + s1.toNat % 0x40 * 0x1000 + s2.toNat % 0x40 * 0x40 +
            s3.toNat % 0x40, 4)

def decodeRuneInString : ByteString → Nat × Nat
  | [] => (runeError, 0)
  | s0 :: rest => if s0 < runeSelf then (s0.toNat, 1) else decodeLead s0 rest

@[simp] theorem decodeRuneInString_nil : decodeRuneInString [] = (runeError, 0) := rfl

theorem decodeRuneInString_ascii {b : UInt8} (rest : ByteString) (small : b < runeSelf) :
    decodeRuneInString (b :: rest) = (b.toNat, 1) := by
  simp [decodeRuneInString, small]

theorem decodeRuneInString_lead {b : UInt8} (rest : ByteString) (large : ¬ b < runeSelf) :
    decodeRuneInString (b :: rest) = decodeLead b rest := by
  simp [decodeRuneInString, large]

theorem decodeLead_size (s0 : UInt8) (rest : ByteString) :
    1 ≤ (decodeLead s0 rest).2 ∧ (decodeLead s0 rest).2 ≤ rest.length + 1 := by
  unfold decodeLead
  split
  · simp
  · rename_i sz lo hi lead
    have shape := leadRange_shape lead
    repeat' split
    all_goals simp only [List.length_cons] at *
    all_goals omega

theorem decodeRuneInString_size (b : UInt8) (rest : ByteString) :
    1 ≤ (decodeRuneInString (b :: rest)).2 ∧
      (decodeRuneInString (b :: rest)).2 ≤ rest.length + 1 := by
  by_cases small : b < runeSelf
  · simp [decodeRuneInString_ascii rest small]
  · simpa [decodeRuneInString_lead rest small] using decodeLead_size b rest

theorem decodeLead_rune_ge (s0 : UInt8) (rest : ByteString) :
    0x80 ≤ (decodeLead s0 rest).1 := by
  unfold decodeLead
  split
  · simp [runeError]
  · rename_i sz lo hi lead
    have shape := leadRange_shape lead
    repeat' split
    all_goals dsimp only [runeError]
    all_goals omega

theorem decodeRuneInString_rune_ge {b : UInt8} (rest : ByteString) (large : ¬ b < runeSelf) :
    0x80 ≤ (decodeRuneInString (b :: rest)).1 := by
  rw [decodeRuneInString_lead rest large]
  exact decodeLead_rune_ge b rest

end Utf8

end Harmony
