import Harmony.Tokenizer.RoundTrip

set_option autoImplicit false

namespace Harmony

namespace CoreBPE

variable (b : CoreBPE)

-- How the loop of `Encode` reads `text` from byte `i` on: each round takes an allowed special literal, or
-- the segment `Next` returns, which ends past `i` and inside `text`; the rounds stop exactly at its end.
inductive Cuts (text : ByteString) (allowed : List ByteString) : Nat → List ByteString → List Rank → Prop
  | done {i : Nat} : text.length ≤ i → Cuts text allowed i [] []
  | special {i n : Nat} {id : Rank} {pieces : List ByteString} {toks : List Rank} :
      i < text.length → 0 < allowed.length → b.matchSpecialAt text i allowed = (id, n) → 0 < n →
      i + n ≤ text.length → Cuts text allowed (i + n) pieces toks →
      Cuts text allowed i (slice text i (i + n) :: pieces) (id :: toks)
  | segment {i : Nat} {pieces : List ByteString} {toks : List Rank} :
      i < text.length → ¬ (0 < allowed.length ∧ 0 < (b.matchSpecialAt text i allowed).2) →
      i < b.seg text i → b.seg text i ≤ text.length → Cuts text allowed (b.seg text i) pieces toks →
      Cuts text allowed i (slice text i (b.seg text i) :: pieces)
        (b.encodePiece (slice text i (b.seg text i)) ++ toks)

variable {b}

theorem Cuts.flatten {text : ByteString} {allowed : List ByteString} {i : Nat} {pieces : List ByteString}
    {toks : List Rank} (cuts : b.Cuts text allowed i pieces toks) : pieces.flatten = text.drop i := by
  induction cuts with
  | done finished => rw [List.drop_eq_nil_of_le finished, List.flatten_nil]
  | special _ _ _ _ within _ ih =>
    rw [List.flatten_cons, ih, ← drop_eq_slice_append text (Nat.le_add_right _ _)]
  | segment _ _ advances _ _ ih =>
    rw [List.flatten_cons, ih, ← drop_eq_slice_append text advances.le]

theorem encodeLoop_cuts (advances : ∀ s i, i < s.length → i < b.seg s i ∧ b.seg s i ≤ s.length)
    (text : ByteString) (allowed : List ByteString) (fuel i : Nat) (out : List Rank) (lastPieceLen : Nat)
    (enough : text.length - i ≤ fuel) :
    ∃ pieces toks, b.Cuts text allowed i pieces toks ∧
      (b.encodeLoop text allowed fuel i out lastPieceLen).1 = out ++ toks := by
  induction fuel generalizing i out lastPieceLen with
  | zero => exact ⟨[], [], .done (by omega), by simp [encodeLoop]⟩
  | succ fuel ih =>
    simp only [encodeLoop]
    by_cases finished : text.length ≤ i
    · exact ⟨[], [], .done finished, by simp [finished]⟩
    rw [if_neg finished]
    by_cases special : 0 < allowed.length ∧ 0 < (b.matchSpecialAt text i allowed).2
    · rw [if_pos special]
      obtain ⟨lit, -, -, size, within, -⟩ := matchSpecialAt_sound special.2
      generalize matched : b.matchSpecialAt text i allowed = m at special size ⊢
      obtain ⟨id, n⟩ := m
      obtain ⟨pieces, toks, cuts, run⟩ := ih (i + n) (out ++ [id]) 0 (by omega)
      exact ⟨_, _, .special (by omega) special.1 matched special.2 (by omega) cuts,
        by rw [run, List.append_assoc, List.singleton_append]⟩
    · rw [if_neg special]
      have bounds := advances text i (by omega)
      rw [if_neg (by omega)]
      obtain ⟨pieces, toks, cuts, run⟩ := ih (b.seg text i)
        (out ++ b.encodePiece (slice text i (b.seg text i))) _ (by omega)
      exact ⟨_, _, .segment (by omega) special bounds.1 bounds.2 cuts, by rw [run, List.append_assoc]⟩

theorem encodeInto_agrees (text : ByteString) (allowed : List ByteString) (out : List Rank) :
    b.encodeInto text allowed out = (out ++ (b.encode text allowed).1, (b.encode text allowed).2) ∧
      b.encodeIntoOrdinary text out = out ++ b.encodeOrdinary text ∧
      b.encodeWithSpecialTokensInto text out = out ++ b.encodeWithSpecialTokens text := by
  refine ⟨encodeInto_eq text allowed out, ?_, ?_⟩
  · rw [encodeIntoOrdinary, encodeInto_eq]; rfl
  · rw [encodeWithSpecialTokensInto, encodeInto_eq]; rfl

end CoreBPE

theorem o200kNext_advances (U : UnicodeTables) :
    (∀ s i, i < s.length → i < o200kNext U s i ∧ o200kNext U s i ≤ s.length) ∧
      ∀ (pairs : List (ByteString × Rank)) (specials : GoMap ByteString Rank) (text : ByteString)
        (allowed : List ByteString), ∃ pieces toks,
          (newCoreBPE pairs specials (o200kNext U)).Cuts text allowed 0 pieces toks ∧ pieces.flatten = text ∧
          ((newCoreBPE pairs specials (o200kNext U)).encode text allowed).1 = toks ∧
          ∀ out, ((newCoreBPE pairs specials (o200kNext U)).encodeInto text allowed out).1 = out ++ toks := by
  have advances : ∀ s i, i < s.length → i < o200kNext U s i ∧ o200kNext U s i ≤ s.length :=
    fun s _ inside => Segmenter.o200kNext_bounds U s inside
  refine ⟨advances, fun pairs specials text allowed => ?_⟩
  obtain ⟨pieces, toks, cuts, run⟩ := CoreBPE.encodeLoop_cuts
    (show ∀ s i, i < s.length → i < (newCoreBPE pairs specials (o200kNext U)).seg s i ∧ _ from advances)
    text allowed text.length 0 [] 0 (by omega)
  refine ⟨pieces, toks, cuts, by rw [cuts.flatten, List.drop_zero], run, fun out => ?_⟩
  rw [CoreBPE.encodeInto_eq, List.append_cancel_left_eq]
  exact run

end Harmony
