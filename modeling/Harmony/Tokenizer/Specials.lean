import Harmony.Runtime.Maps
import Harmony.Runtime.Utf8

set_option autoImplicit false

namespace Harmony

def tokStartOfText : UInt32 := 199998
def tokEndOfText : UInt32 := 199999
def tokReturn : UInt32 := 200002
def tokConstrain : UInt32 := 200003
def tokChannel : UInt32 := 200005
def tokStart : UInt32 := 200006
def tokEnd : UInt32 := 200007
def tokMessage : UInt32 := 200008
def tokCall : UInt32 := 200012

def reservedStart : Nat := 200014
def reservedEnd : Nat := 201088

-- `fmt.Sprintf("%d", n)`: the digits of `n`, most significant first, at most `fuel` of them.
def decimalDigits : Nat → Nat → ByteString → ByteString
  | 0, _, acc => acc
  | fuel + 1, n, acc =>
    let acc := UInt8.ofNat (0x30 + n % 10) :: acc
    if n / 10 = 0 then acc else decimalDigits fuel (n / 10) acc

def formatDecimal (n : Nat) : ByteString := decimalDigits (n + 1) n []

-- Reading the digits back, so that `formatDecimal` is injective.
def parseDecimal (s : ByteString) : Nat := s.foldl (fun v d => v * 10 + (d.toNat - 0x30)) 0

theorem decimalDigits_acc (fuel n : Nat) (acc : ByteString) :
    decimalDigits fuel n acc = decimalDigits fuel n [] ++ acc := by
  induction fuel generalizing n acc with
  | zero => rfl
  | succ fuel ih =>
    simp only [decimalDigits]
    split
    · rfl
    · rw [ih, ih (n / 10) [UInt8.ofNat (0x30 + n % 10)], List.append_assoc, List.singleton_append]

theorem parseDecimal_decimalDigits (fuel n : Nat) (enough : n < fuel) :
    parseDecimal (decimalDigits fuel n []) = n := by
  induction fuel generalizing n with
  | zero => omega
  | succ fuel ih =>
    have digit : (UInt8.ofNat (0x30 + n % 10)).toNat - 0x30 = n % 10 := by
      rw [UInt8.toNat_ofNat_of_lt (by simp only [UInt8.size]; omega)]
      omega
    simp only [decimalDigits]
    split
    · simp only [parseDecimal, List.foldl_cons, List.foldl_nil, digit]
      omega
    · rw [decimalDigits_acc, parseDecimal, List.foldl_append, ← parseDecimal, ih _ (by omega)]
      simp only [List.foldl_cons, List.foldl_nil, digit]
      omega

theorem formatDecimal_injective {n m : Nat} (same : formatDecimal n = formatDecimal m) : n = m := by
  have back := congrArg parseDecimal same
  rwa [formatDecimal, formatDecimal, parseDecimal_decimalDigits _ _ (by omega),
    parseDecimal_decimalDigits _ _ (by omega)] at back

def reservedLiteral (id : Nat) : ByteString := ascii "<|reserved_" ++ formatDecimal id ++ ascii "|>"

def namedSpecials : List (ByteString × UInt32) :=
  [(ascii "<|startoftext|>", tokStartOfText), (ascii "<|endoftext|>", tokEndOfText),
    (ascii "<|return|>", tokReturn), (ascii "<|constrain|>", tokConstrain),
    (ascii "<|channel|>", tokChannel), (ascii "<|start|>", tokStart), (ascii "<|end|>", tokEnd),
    (ascii "<|message|>", tokMessage), (ascii "<|call|>", tokCall)]

-- `for id := ReservedStart; id <= ReservedEnd; id++ { m[fmt.Sprintf("<|reserved_%d|>", id)] = id }`
def reservedSpecials : List (ByteString × UInt32) :=
  (List.range' reservedStart (reservedEnd + 1 - reservedStart)).map fun id => (reservedLiteral id, UInt32.ofNat id)

theorem reservedLiteral_injective {n m : Nat} (same : reservedLiteral n = reservedLiteral m) : n = m := by
  rw [reservedLiteral, reservedLiteral, List.append_assoc, List.append_assoc] at same
  exact formatDecimal_injective (List.append_cancel_right (List.append_cancel_left same))

theorem named_not_reserved (id : Nat) : ∀ e ∈ namedSpecials, e.1 ≠ reservedLiteral id := by
  intro e mem same
  have prefixes := congrArg (List.take 5) same
  rw [reservedLiteral, List.append_assoc, List.take_append_of_le_length (by decide)] at prefixes
  revert prefixes
  simp only [namedSpecials, List.mem_cons, List.mem_singleton, List.not_mem_nil, or_false] at mem
  rcases mem with rfl | rfl | rfl | rfl | rfl | rfl | rfl | rfl | rfl <;> decide

-- `buildHarmonySpecials()`: the nine named tokens, then the reserved range.
def harmonySpecials : GoMap ByteString UInt32 where
  entries := namedSpecials ++ reservedSpecials
  keys_nodup := by
    rw [List.map_append, List.nodup_append]
    refine ⟨by decide, ?_, ?_⟩
    · rw [reservedSpecials, List.map_map]
      exact (List.nodup_range' _ _).map_on fun x _ y _ same => reservedLiteral_injective same
    · intro key named reserved
      obtain ⟨e, mem, rfl⟩ := List.mem_map.mp named
      obtain ⟨r, listed, same⟩ := List.mem_map.mp reserved
      obtain ⟨id, -, rfl⟩ := List.mem_map.mp listed
      exact named_not_reserved id e mem same.symm

theorem namedSpecials_ids_below : ∀ e ∈ namedSpecials, e.2.toNat < reservedStart := by decide

theorem reservedSpecials_ids {e : ByteString × UInt32} (mem : e ∈ reservedSpecials) :
    reservedStart ≤ e.2.toNat ∧ e.2.toNat ≤ reservedEnd := by
  obtain ⟨id, range, rfl⟩ := List.mem_map.mp mem
  rw [List.mem_range'_1] at range
  rw [UInt32.toNat_ofNat_of_lt (by simp only [UInt32.size, reservedStart, reservedEnd] at range ⊢; omega)]
  simp only [reservedStart, reservedEnd] at range ⊢
  omega

theorem harmonySpecials_ids_above : ∀ e ∈ harmonySpecials.entries, 256 ≤ e.2.toNat := by
  intro e mem
  rcases List.mem_append.mp mem with named | reserved
  · exact (by decide : ∀ e ∈ namedSpecials, 256 ≤ e.2.toNat) e named
  · have inRange := reservedSpecials_ids reserved
    simp only [reservedStart] at inRange
    omega

theorem harmonySpecials_ids_nodup : (harmonySpecials.entries.map Prod.snd).Nodup := by
  have small : ∀ id ∈ List.range' reservedStart (reservedEnd + 1 - reservedStart),
      (UInt32.ofNat id).toNat = id := fun id mem => by
    rw [List.mem_range'_1] at mem
    exact UInt32.toNat_ofNat_of_lt (by simp only [UInt32.size, reservedStart, reservedEnd] at mem ⊢; omega)
  rw [harmonySpecials, List.map_append, List.nodup_append]
  refine ⟨by decide, ?_, ?_⟩
  · rw [reservedSpecials, List.map_map]
    refine (List.nodup_range' _ _).map_on fun x inside y inside' same => ?_
    have ids := congrArg UInt32.toNat same
    simp only [Function.comp_apply] at ids
    rwa [small x inside, small y inside'] at ids
  · intro id named reserved
    obtain ⟨e, mem, rfl⟩ := List.mem_map.mp named
    obtain ⟨r, listed, same⟩ := List.mem_map.mp reserved
    obtain ⟨n, range, rfl⟩ := List.mem_map.mp listed
    have below := namedSpecials_ids_below e mem
    have above := List.mem_range'_1.mp range
    rw [← same, small n range] at below
    omega

end Harmony
