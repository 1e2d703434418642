import Harmony.Tokenizer.Core

set_option autoImplicit false

namespace Harmony

namespace Utf8

-- `utf8.ValidString`: decoding never meets a bad sequence, which `DecodeRuneInString` reads as
-- `(RuneError, 1)`. The literal U+FFFD is three bytes long, so it is not one.
def validFrom : Nat → ByteString → Bool
  | 0, _ => true
  | _, [] => true
  | fuel + 1, s =>
    if (decodeRuneInString s).1 = runeError ∧ (decodeRuneInString s).2 = 1 then false
    else validFrom fuel (s.drop (decodeRuneInString s).2)

def validString (s : ByteString) : Bool := validFrom s.length s

example : validString [0xEF, 0xBF, 0xBD] = true ∧ validString [0xFF] = false := by decide

end Utf8

namespace CoreBPE

variable (b : CoreBPE)

-- The bytes `DecodeBytesInto` appends for one id: the rank table first, the specials table otherwise.
def idBytes (t : Rank) : Option ByteString :=
  match b.dec t with
  | some bs => some bs
  | none => b.specialDec t

variable {b}

theorem idBytes_eq_none {t : Rank} : b.idBytes t = none ↔ b.dec t = none ∧ b.specialDec t = none := by
  unfold idBytes
  split <;> simp_all

theorem decodeBytesInto_eq (dst : ByteString) (ts : List Rank) :
    b.decodeBytesInto dst ts =
      if ts.all fun t => (b.idBytes t).isSome then .ok (dst ++ (ts.filterMap b.idBytes).flatten)
      else .error (ascii "invalid token for decoding") := by
  induction ts generalizing dst with
  | nil => simp [decodeBytesInto]
  | cons t ts ih =>
    have step : b.decodeBytesInto dst (t :: ts) =
        match b.idBytes t with
        | some bs => b.decodeBytesInto (dst ++ bs) ts
        | none => .error (ascii "invalid token for decoding") := by
      rw [decodeBytesInto, idBytes]
      cases b.dec t <;> rfl
    rw [step]
    cases found : b.idBytes t with
    | none => simp [found]
    | some bs => simp [found, ih, List.filterMap_cons]

theorem forall₂_filterMap {α β : Type} {f : α → Option β} {xs : List α} (all : xs.all fun x => (f x).isSome) :
    List.Forall₂ (fun x y => f x = some y) xs (xs.filterMap f) := by
  induction xs with
  | nil => exact .nil
  | cons x xs ih =>
    simp only [List.all_cons, Bool.and_eq_true] at all
    obtain ⟨y, fx⟩ := Option.isSome_iff_exists.mp all.1
    rw [List.filterMap_cons_some fx]
    exact .cons fx (ih all.2)

theorem decodeBytes_append (xs ys : List Rank) :
    b.decodeBytes (xs ++ ys) = (b.decodeBytes xs).bind fun x => (b.decodeBytes ys).map (x ++ ·) := by
  simp only [decodeBytes, decodeBytesInto_eq, List.all_append, List.filterMap_append, List.flatten_append]
  cases xs.all fun t => (b.idBytes t).isSome <;> cases ys.all fun t => (b.idBytes t).isSome <;> rfl

theorem decodeBytesInto_outcomes (dst : ByteString) (ts : List Rank) :
    ((∃ parts, List.Forall₂ (fun t bs => b.idBytes t = some bs) ts parts ∧
        b.decodeBytesInto dst ts = .ok (dst ++ parts.flatten)) ∨
      ((∃ t ∈ ts, b.dec t = none ∧ b.specialDec t = none) ∧
        b.decodeBytesInto dst ts = .error (ascii "invalid token for decoding"))) ∧
      ((∃ err, b.decodeBytesInto dst ts = .error err) ↔ ∃ t ∈ ts, b.dec t = none ∧ b.specialDec t = none) ∧
      ∀ xs ys, b.decodeBytes (xs ++ ys) = (b.decodeBytes xs).bind fun x => (b.decodeBytes ys).map (x ++ ·) := by
  have unknown : (ts.all fun t => (b.idBytes t).isSome) = false ↔
      ∃ t ∈ ts, b.dec t = none ∧ b.specialDec t = none := by
    simp [← idBytes_eq_none]
  rw [decodeBytesInto_eq]
  refine ⟨?_, ?_, decodeBytes_append⟩
  · cases all : ts.all fun t => (b.idBytes t).isSome
    · exact .inr ⟨unknown.mp all, rfl⟩
    · exact .inl ⟨_, forall₂_filterMap all, rfl⟩
  · rw [← unknown]
    cases ts.all fun t => (b.idBytes t).isSome <;> simp

end CoreBPE

end Harmony
