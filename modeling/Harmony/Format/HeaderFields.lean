import Harmony.Format.Header
import Harmony.Runtime.StringsLaws

set_option autoImplicit false

namespace Harmony

open Strings

section Infix

theorem index_eq_none_iff {sub : ByteString} : ∀ {s : ByteString}, index s sub = none ↔ ¬ sub <:+: s
  | [] => by cases sub <;> simp [index]
  | c :: rest => by
    rw [index, List.infix_cons_iff, ← List.isPrefixOf_iff_prefix]
    split_ifs with prefixed
    · simp [prefixed]
    · simp [prefixed, index_eq_none_iff]

theorem found_at_index {sub : ByteString} : ∀ {s : ByteString} {i : Nat}, index s sub = some i → sub <+: s.drop i
  | [], i, found => by
    rw [index] at found
    split_ifs at found with empty
    · cases found
      simp [empty]
  | c :: rest, i, found => by
    rw [index] at found
    split_ifs at found with prefixed
    · cases found
      exact List.isPrefixOf_iff_prefix.mp prefixed
    · obtain ⟨j, later, rfl⟩ := Option.map_eq_some'.mp found
      show sub <+: rest.drop j
      exact found_at_index later

theorem trimSpace_within (U : UnicodeTables) (s : ByteString) : trimSpace U s <:+: s := by
  have left : trimLeftFunc (isSpace U) s <:+: s := by
    unfold trimLeftFunc
    split
    · exact (List.drop_suffix _ _).isInfix
    · exact List.nil_infix
  refine List.IsInfix.trans ?_ left
  unfold trimSpace trimRightFunc
  split
  · split_ifs
    · exact (List.take_prefix _ _).isInfix
    · exact (List.take_prefix _ _).isInfix
  · exact List.nil_infix

theorem not_mem_take_of_findIdx? {p : UInt8 → Bool} {l : ByteString} {stop : Nat} (found : l.findIdx? p = some stop)
    {b : UInt8} (hit : p b = true) : b ∉ l.take stop := by
  obtain ⟨_, -, before⟩ := List.findIdx?_eq_some_iff_getElem.mp found
  intro mem
  obtain ⟨j, inside, rfl⟩ := List.getElem_of_mem mem
  rw [List.getElem_take] at hit
  exact before j (by simp at inside; omega) hit

theorem not_mem_of_findIdx? {p : UInt8 → Bool} {l : ByteString} (missing : l.findIdx? p = none) {b : UInt8}
    (hit : p b = true) : b ∉ l := fun mem => by
  simp [List.findIdx?_eq_none_iff.mp missing b mem] at hit

end Infix

-- The header fields a message gets from `parseHeaderFromTokens`: a recipient and a channel that are single
-- words, and a content type with no channel marker left in it.
structure CleanHeader (recipient channel contentType : ByteString) : Prop where
  recipientWord : 0x20 ∉ recipient ∧ 0x3C ∉ recipient
  channelWord : 0x20 ∉ channel
  unmarked : ¬ channelMarker <:+: contentType

theorem extractRecipient_word (s : ByteString) : 0x20 ∉ extractRecipient s ∧ 0x3C ∉ extractRecipient s := by
  unfold extractRecipient
  split
  · dsimp only
    split
    · rename_i missing
      exact ⟨not_mem_of_findIdx? missing rfl, not_mem_of_findIdx? missing rfl⟩
    · rename_i found
      exact ⟨not_mem_take_of_findIdx? found rfl, not_mem_take_of_findIdx? found rfl⟩
  · simp

theorem extractChannel_word (s : ByteString) : 0x20 ∉ extractChannel s := by
  unfold extractChannel indexByte
  split
  · dsimp only
    split
    · exact not_mem_of_findIdx? ‹_› rfl
    · exact not_mem_take_of_findIdx? ‹_› rfl
  · simp

section Scrub

variable (U : UnicodeTables)

theorem length_stripChannels_round {ss : ByteString} {idx : Nat} (found : index ss channelMarker = some idx)
    (rest : ByteString) (within : rest.length ≤ ss.length - (idx + channelMarker.length)) :
    (trimSpace U (ss.take idx ++ rest)).length < ss.length := by
  have fits := (found_at_index found).length_le
  have shrunk := (trimSpace_within U (ss.take idx ++ rest)).length_le
  have marker : channelMarker.length = 11 := rfl
  simp only [List.length_drop, List.length_append, List.length_take] at fits shrunk
  omega

theorem stripChannels_unmarked : ∀ (fuel : Nat) (ss : ByteString), ss.length ≤ fuel →
    ¬ channelMarker <:+: stripChannels U fuel ss
  | 0, ss, enough => by
    rw [List.length_eq_zero.mp (Nat.le_zero.mp enough), stripChannels]
    exact fun inside => absurd inside.length_le (by decide)
  | fuel + 1, ss, enough => by
    unfold stripChannels
    split
    · exact index_eq_none_iff.mp ‹_›
    · rename_i idx found
      dsimp only
      split
      · have shrinks := length_stripChannels_round U found [] (Nat.zero_le _)
        rw [List.append_nil] at shrinks
        exact stripChannels_unmarked fuel _ (by omega)
      · rename_i sp _
        have shrinks := length_stripChannels_round U found ((ss.drop (idx + channelMarker.length)).drop sp)
          (by simp only [List.length_drop]; omega)
        exact stripChannels_unmarked fuel _ (by omega)

theorem scrubContentType_unmarked (roleToken remainder : ByteString) :
    ¬ channelMarker <:+: scrubContentType U roleToken remainder := fun inside =>
  stripChannels_unmarked U _ _ (Nat.le_refl _) (inside.trans (trimSpace_within U _))

end Scrub

theorem parseHeaderText_clean (U : UnicodeTables) (nextRole : Option Role) (s : ByteString) :
    CleanHeader (parseHeaderText U nextRole s).recipient (parseHeaderText U nextRole s).channel
      (parseHeaderText U nextRole s).contentType := by
  dsimp only [parseHeaderText]
  exact ⟨extractRecipient_word _, extractChannel_word _, scrubContentType_unmarked U _ _⟩

end Harmony
