import Harmony.Tokenizer.Core
import Harmony.Tokenizer.MergeRefinement
import Harmony.Tokenizer.SegmenterLaws

set_option autoImplicit false

namespace Harmony

-- What the round trip asks of the vocabulary handed to `NewCoreBPE`. The special literals are
-- distinct already, being the keys of a map.
structure WellFormedVocabulary (pairs : List (ByteString × Rank)) (specials : GoMap ByteString Rank) :
    Prop where
  distinctBytes : (pairs.map Prod.fst).Nodup
  distinctRanks : (pairs.map Prod.snd).Nodup
  belowMax : ∀ p ∈ pairs, p.2 ≠ maxRank
  singleBytes : ∀ x : UInt8, ∃ r, ([x], r) ∈ pairs
  distinctIds : (specials.entries.map Prod.snd).Nodup
  apart : ∀ s ∈ specials.entries, ∀ p ∈ pairs, s.2 ≠ p.2

def SegmenterBounded (seg : Segmenter) : Prop := ∀ s i, i < s.length → seg s i ≤ s.length

theorem o200kNext_bounded (U : UnicodeTables) : SegmenterBounded (o200kNext U) :=
  fun s _ inside => (Segmenter.o200kNext_bounds U s inside).2

namespace CoreBPE

variable (b : CoreBPE)

def Decodes (toks : List Rank) (bytes : ByteString) : Prop :=
  ∀ dst more, b.decodeBytesInto dst (toks ++ more) = b.decodeBytesInto (dst ++ bytes) more

-- What the encoding loop needs to be undone by decoding: each of its two kinds of round emits
-- tokens that decode to the bytes the round consumed.
structure RoundTrips : Prop where
  pieces : ∀ piece : ByteString, piece ≠ [] → b.Decodes (b.encodePiece piece) piece
  specials : ∀ lit id, (lit, id) ∈ b.specialEnc.entries → b.Decodes [id] lit
  bounded : SegmenterBounded b.seg

variable {b}

theorem decodes_nil : b.Decodes [] [] := fun dst more => by simp

theorem Decodes.append {t u : List Rank} {x y : ByteString} (first : b.Decodes t x)
    (second : b.Decodes u y) : b.Decodes (t ++ u) (x ++ y) := fun dst more => by
  rw [List.append_assoc, first, second, List.append_assoc]

theorem decodes_token {t : Rank} {v : ByteString} (stored : b.dec t = some v) : b.Decodes [t] v :=
  fun dst more => by simp [decodeBytesInto, stored]

theorem decodes_special {t : Rank} {v : ByteString} (unstored : b.dec t = none)
    (special : b.specialDec t = some v) : b.Decodes [t] v :=
  fun dst more => by simp [decodeBytesInto, unstored, special]

theorem Decodes.decodeBytes {toks : List Rank} {bytes : ByteString} (decodes : b.Decodes toks bytes) :
    b.decodeBytes toks = .ok bytes := by
  simpa [CoreBPE.decodeBytes, decodeBytesInto] using decodes [] []

-- `matchSpecialAt`'s `(id, maxLen)`: nothing yet, or an allowed literal of that id found at `i`.
def SpecialFound (s : ByteString) (i : Nat) (allowed : List ByteString) (acc : Rank × Nat) : Prop :=
  acc.2 = 0 ∨ ∃ lit, (lit, acc.1) ∈ b.specialEnc.entries ∧ lit ∈ allowed ∧ lit.length = acc.2 ∧
    i + lit.length ≤ s.length ∧ slice s i (i + lit.length) = lit

theorem matchSpecialStep_found {s : ByteString} {i : Nat} {allowed : List ByteString} {acc : Rank × Nat}
    {e : ByteString × Rank} (mem : e ∈ b.specialEnc.entries) (found : b.SpecialFound s i allowed acc) :
    b.SpecialFound s i allowed (matchSpecialStep s i allowed acc e) := by
  unfold matchSpecialStep
  by_cases listed : e.1 ∈ allowed
  · rw [if_neg (not_not.mpr listed)]
    by_cases short : e.1.length > s.length - i
    · rw [if_pos short]
      exact found
    · rw [if_neg short]
      by_cases matching : slice s i (i + e.1.length) = e.1 ∧ e.1.length > acc.2
      · rw [if_pos matching]
        have longer := matching.2
        exact .inr ⟨e.1, mem, listed, rfl, by omega, matching.1⟩
      · rw [if_neg matching]
        exact found
  · rw [if_pos listed]
    exact found

theorem matchSpecialAt_sound {s : ByteString} {i : Nat} {allowed : List ByteString}
    (matched : 0 < (b.matchSpecialAt s i allowed).2) :
    ∃ lit, (lit, (b.matchSpecialAt s i allowed).1) ∈ b.specialEnc.entries ∧ lit ∈ allowed ∧
      lit.length = (b.matchSpecialAt s i allowed).2 ∧ i + lit.length ≤ s.length ∧
      slice s i (i + lit.length) = lit := by
  have scan : ∀ es : List (ByteString × Rank), (∀ e ∈ es, e ∈ b.specialEnc.entries) →
      ∀ acc, b.SpecialFound s i allowed acc →
        b.SpecialFound s i allowed (es.foldl (matchSpecialStep s i allowed) acc) := by
    intro es
    induction es with
    | nil => exact fun _ _ found => found
    | cons e rest ih =>
      exact fun inside acc found => ih (fun x mem => inside x (List.mem_cons_of_mem _ mem)) _
        (matchSpecialStep_found (inside e (List.mem_cons_self _ _)) found)
  have found := scan _ (fun _ mem => mem) (0, 0) (.inl rfl)
  dsimp only [matchSpecialAt] at matched ⊢
  generalize List.foldl (matchSpecialStep s i allowed) (0, 0) b.specialEnc.entries = best at found matched ⊢
  split_ifs at matched ⊢ with empty
  · simp at matched
  · rcases found with none | found
    · contradiction
    · exact found

theorem encodeLoop_frame (text : ByteString) (allowed : List ByteString) (fuel i : Nat) (out : List Rank)
    (lastPieceLen : Nat) :
    b.encodeLoop text allowed fuel i out lastPieceLen =
      (out ++ (b.encodeLoop text allowed fuel i [] lastPieceLen).1,
        (b.encodeLoop text allowed fuel i [] lastPieceLen).2) := by
  induction fuel generalizing i out lastPieceLen with
  | zero => simp [encodeLoop]
  | succ fuel ih =>
    simp only [encodeLoop]
    split_ifs <;>
      first
      | rw [ih _ (out ++ _), ih _ ([] ++ _), List.nil_append, List.append_assoc]
      | simp

theorem encodeInto_eq (text : ByteString) (allowed : List ByteString) (out : List Rank) :
    b.encodeInto text allowed out = (out ++ (b.encode text allowed).1, (b.encode text allowed).2) :=
  encodeLoop_frame text allowed _ 0 out 0

theorem encodeLoop_emits (R : List Rank → ByteString → Prop) (nil : R [] [])
    (append : ∀ {t u : List Rank} {x y : ByteString}, R t x → R u y → R (t ++ u) (x ++ y))
    (pieces : ∀ piece : ByteString, piece ≠ [] → R (b.encodePiece piece) piece)
    (allowed : List ByteString) (specials : 0 < allowed.length → ∀ lit id, (lit, id) ∈ b.specialEnc.entries → R [id] lit)
    (bounded : SegmenterBounded b.seg) (text : ByteString) (fuel i : Nat) (out : List Rank) (lastPieceLen : Nat)
    (enough : text.length - i ≤ fuel) :
    ∃ emitted, (b.encodeLoop text allowed fuel i out lastPieceLen).1 = out ++ emitted ∧ R emitted (text.drop i) := by
  induction fuel generalizing i out lastPieceLen with
  | zero =>
    refine ⟨[], by simp [encodeLoop], ?_⟩
    rwa [List.drop_eq_nil_of_le (by omega)]
  | succ fuel ih =>
    simp only [encodeLoop]
    by_cases finished : text.length ≤ i
    · rw [if_pos finished]
      refine ⟨[], by simp, ?_⟩
      rwa [List.drop_eq_nil_of_le finished]
    rw [if_neg finished]
    by_cases special : 0 < allowed.length ∧ 0 < (b.matchSpecialAt text i allowed).2
    · rw [if_pos special]
      obtain ⟨lit, mem, -, size, within, read⟩ := matchSpecialAt_sound special.2
      obtain ⟨emitted, run, rest⟩ := ih (i + (b.matchSpecialAt text i allowed).2)
        (out ++ [(b.matchSpecialAt text i allowed).1]) 0 (by omega)
      refine ⟨_ :: emitted, by rw [run, List.append_assoc, List.singleton_append], ?_⟩
      rw [← size] at rest
      rw [drop_eq_slice_append text (Nat.le_add_right i lit.length), read]
      exact append (specials special.1 lit _ mem) rest
    rw [if_neg special]
    generalize stopped : (if b.seg text i ≤ i then i + 1 else b.seg text i) = stop
    have bounds : i < stop ∧ stop ≤ text.length := by
      have next := bounded text i (by omega)
      split at stopped <;> omega
    obtain ⟨emitted, run, rest⟩ := ih stop (out ++ b.encodePiece (slice text i stop))
      (b.encodePiece (slice text i stop)).length (by omega)
    refine ⟨b.encodePiece (slice text i stop) ++ emitted, by rw [run, List.append_assoc], ?_⟩
    have nonempty : slice text i stop ≠ [] :=
      List.ne_nil_of_length_pos (by rw [length_slice]; omega)
    rw [drop_eq_slice_append text bounds.1.le]
    exact append (pieces _ nonempty) rest

theorem encodeLoop_decodes (rt : b.RoundTrips) (text : ByteString) (allowed : List ByteString)
    (fuel i : Nat) (out : List Rank) (lastPieceLen : Nat) (enough : text.length - i ≤ fuel) :
    ∃ emitted, (b.encodeLoop text allowed fuel i out lastPieceLen).1 = out ++ emitted ∧
      b.Decodes emitted (text.drop i) :=
  encodeLoop_emits b.Decodes decodes_nil Decodes.append rt.pieces allowed (fun _ => rt.specials) rt.bounded
    text fuel i out lastPieceLen enough

theorem encodeOrdinary_tokens (P : Rank → Prop) (pieces : ∀ piece : ByteString, piece ≠ [] → ∀ t ∈ b.encodePiece piece, P t)
    (bounded : SegmenterBounded b.seg) (text : ByteString) : ∀ t ∈ b.encodeOrdinary text, P t := by
  obtain ⟨emitted, run, each⟩ := encodeLoop_emits (fun toks _ => ∀ t ∈ toks, P t) (by simp)
    (fun first second t mem => (List.mem_append.mp mem).elim (first t) (second t)) pieces
    [] (by simp) bounded text text.length 0 [] 0 (by omega)
  rw [encodeOrdinary, encode, run, List.nil_append]
  exact each

theorem decodes_encodeOrdinary (rt : b.RoundTrips) (text : ByteString) : b.Decodes (b.encodeOrdinary text) text := by
  obtain ⟨emitted, run, decodes⟩ := encodeLoop_decodes rt text [] text.length 0 [] 0 (by omega)
  rw [encodeOrdinary, encode, run, List.nil_append]
  exact decodes

theorem decodeBytes_encode (rt : b.RoundTrips) (text : ByteString) (allowed : List ByteString) :
    b.decodeBytes (b.encode text allowed).1 = .ok text := by
  obtain ⟨emitted, run, decodes⟩ := encodeLoop_decodes rt text allowed text.length 0 [] 0 (by omega)
  rw [encode, run, List.nil_append]
  exact decodes.decodeBytes

end CoreBPE

section Vocabulary

variable {pairs : List (ByteString × Rank)} {specials : GoMap ByteString Rank} (seg : Segmenter)
  (wf : WellFormedVocabulary pairs specials)
include wf

theorem enc_of_mem {x : ByteString} {r : Rank} (mem : (x, r) ∈ pairs) :
    (newCoreBPE pairs specials seg).enc x = some r :=
  (assign_of_mem wf.distinctBytes mem).1

theorem dec_of_enc {x : ByteString} {r : Rank} (found : (newCoreBPE pairs specials seg).enc x = some r) :
    (newCoreBPE pairs specials seg).dec r = some x := by
  obtain ⟨e, mem, rfl, rfl⟩ := assignLast_sound found
  exact (assign_of_mem wf.distinctRanks mem).2

theorem enc_below {x : ByteString} {r : Rank} (found : (newCoreBPE pairs specials seg).enc x = some r) :
    r ≠ maxRank := by
  obtain ⟨e, mem, -, rfl⟩ := assignLast_sound found
  exact wf.belowMax e mem

theorem decodes_keys {parts : List ByteString}
    (keys : ∀ p ∈ parts, ((newCoreBPE pairs specials seg).enc p).isSome) :
    (newCoreBPE pairs specials seg).Decodes
      (parts.map fun p => ((newCoreBPE pairs specials seg).enc p).getD 0) parts.flatten := by
  induction parts with
  | nil => exact CoreBPE.decodes_nil
  | cons p rest ih =>
    obtain ⟨r, key⟩ := Option.isSome_iff_exists.mp (keys p (List.mem_cons_self _ _))
    rw [List.map_cons, List.flatten_cons, key, Option.getD_some]
    exact (CoreBPE.decodes_token (dec_of_enc seg wf key)).append
      (ih fun q mem => keys q (List.mem_cons_of_mem _ mem))

theorem encodePiece_keys {piece : ByteString} (nonempty : piece ≠ []) :
    ∃ parts : List ByteString, (∀ p ∈ parts, ((newCoreBPE pairs specials seg).enc p).isSome) ∧
      parts.flatten = piece ∧
      (newCoreBPE pairs specials seg).encodePiece piece =
        parts.map fun p => ((newCoreBPE pairs specials seg).enc p).getD 0 := by
  unfold CoreBPE.encodePiece
  split
  next id found => exact ⟨[piece], by simp [found], by simp, by simp [found]⟩
  next missing =>
    have long : 2 ≤ piece.length := by
      rcases piece with _ | ⟨x, _ | ⟨y, rest⟩⟩
      · contradiction
      · obtain ⟨r, mem⟩ := wf.singleBytes x
        rw [enc_of_mem seg wf mem] at missing
        cases missing
      · simp
    have singles : ∀ p ∈ piece.map (fun x => [x]), ((newCoreBPE pairs specials seg).enc p).isSome := by
      intro p mem
      obtain ⟨x, -, rfl⟩ := List.mem_map.mp mem
      obtain ⟨r, single⟩ := wf.singleBytes x
      simp [enc_of_mem seg wf single]
    refine ⟨_, Merge.referenceMerge_keys _ singles, ?_,
      Merge.bytePairEncode_eq_reference _ (fun x r found => enc_below seg wf found) piece long⟩
    rw [Merge.flatten_referenceMerge, Merge.flatten_singletons]

theorem encodePiece_decodes {piece : ByteString} (nonempty : piece ≠ []) :
    (newCoreBPE pairs specials seg).Decodes ((newCoreBPE pairs specials seg).encodePiece piece) piece := by
  obtain ⟨parts, keys, spelled, tokens⟩ := encodePiece_keys seg wf nonempty
  rw [tokens, ← spelled]
  exact decodes_keys seg wf keys

theorem encodePiece_ranks {piece : ByteString} (nonempty : piece ≠ []) :
    ∀ t ∈ (newCoreBPE pairs specials seg).encodePiece piece, ∃ x, (x, t) ∈ pairs := by
  obtain ⟨parts, keys, -, tokens⟩ := encodePiece_keys seg wf nonempty
  rw [tokens]
  intro t mem
  obtain ⟨p, listed, rfl⟩ := List.mem_map.mp mem
  obtain ⟨r, found⟩ := Option.isSome_iff_exists.mp (keys p listed)
  obtain ⟨e, stored, rfl, rfl⟩ := assignLast_sound found
  exact ⟨e.1, by simpa [found] using stored⟩

theorem special_decodes {lit : ByteString} {id : Rank} (mem : (lit, id) ∈ specials.entries) :
    (newCoreBPE pairs specials seg).Decodes [id] lit :=
  CoreBPE.decodes_special (assignFirst_of_absent fun p listed same => wf.apart _ mem p listed same.symm)
    (assign_of_mem wf.distinctIds mem).1

theorem newCoreBPE_roundTrips (bounded : SegmenterBounded seg) : (newCoreBPE pairs specials seg).RoundTrips :=
  ⟨fun _ nonempty => encodePiece_decodes seg wf nonempty, fun _ _ mem => special_decodes seg wf mem, bounded⟩

end Vocabulary

theorem decodeBytes_encode_newCoreBPE (pairs : List (ByteString × Rank)) (specials : GoMap ByteString Rank)
    (seg : Segmenter) (wf : WellFormedVocabulary pairs specials) (bounded : SegmenterBounded seg) :
    (∀ text allowed, (newCoreBPE pairs specials seg).decodeBytes
        ((newCoreBPE pairs specials seg).encode text allowed).1 = .ok text) ∧
      ∀ text, (newCoreBPE pairs specials seg).decodeUTF8
        ((newCoreBPE pairs specials seg).encodeOrdinary text) = .ok text :=
  ⟨CoreBPE.decodeBytes_encode (newCoreBPE_roundTrips seg wf bounded),
    fun text => CoreBPE.decodeBytes_encode (newCoreBPE_roundTrips seg wf bounded) text []⟩

def byteVocabulary : List (ByteString × Rank) :=
  (List.range 256).map fun n => ([UInt8.ofNat n], UInt32.ofNat n)

def endSpecial : GoMap ByteString Rank := ⟨[(ascii "<|end|>", 200007)], by decide⟩

def asciiTables : UnicodeTables where
  letter r := decide ((0x41 ≤ r ∧ r ≤ 0x5A) ∨ (0x61 ≤ r ∧ r ≤ 0x7A))
  mark _ := false
  number r := decide (0x30 ≤ r ∧ r ≤ 0x39)
  whiteSpace _ := false
  letter_ascii _ _ := rfl
  mark_ascii _ _ := rfl
  number_ascii _ _ := rfl
  whiteSpace_runeError := rfl

theorem byteVocabulary_rank {p : ByteString × Rank} (mem : p ∈ byteVocabulary) : p.2.toNat < 256 := by
  obtain ⟨n, inside, rfl⟩ := List.mem_map.mp mem
  have small := List.mem_range.mp inside
  rw [UInt32.toNat_ofNat_of_lt (by simp only [UInt32.size]; omega)]
  exact small

theorem byteVocabulary_wellFormed_of (specials : GoMap ByteString Rank) (distinct : (specials.entries.map Prod.snd).Nodup)
    (high : ∀ s ∈ specials.entries, 256 ≤ s.2.toNat) : WellFormedVocabulary byteVocabulary specials where
  distinctBytes := by
    rw [byteVocabulary, List.map_map]
    refine (List.nodup_range 256).map_on fun x inside y inside' same => ?_
    have small := List.mem_range.mp inside
    have small' := List.mem_range.mp inside'
    have bytes := congrArg UInt8.toNat (List.head_eq_of_cons_eq same)
    rwa [UInt8.toNat_ofNat_of_lt small, UInt8.toNat_ofNat_of_lt small'] at bytes
  distinctRanks := by
    rw [byteVocabulary, List.map_map]
    refine (List.nodup_range 256).map_on fun x inside y inside' same => ?_
    have small := List.mem_range.mp inside
    have small' := List.mem_range.mp inside'
    have ranks := congrArg UInt32.toNat same
    simp only [Function.comp_apply] at ranks
    rwa [UInt32.toNat_ofNat_of_lt (by simp only [UInt32.size]; omega),
      UInt32.toNat_ofNat_of_lt (by simp only [UInt32.size]; omega)] at ranks
  belowMax p mem same := by
    have small := byteVocabulary_rank mem
    rw [same] at small
    exact absurd small (by decide)
  singleBytes x := by
    refine ⟨UInt32.ofNat x.toNat, List.mem_map.mpr ⟨x.toNat, List.mem_range.mpr (UInt8.toNat_lt x), ?_⟩⟩
    have byte : UInt8.ofNat x.toNat = x := UInt8.toNat.inj (UInt8.toNat_ofNat_of_lt (UInt8.toNat_lt x))
    rw [byte]
  distinctIds := distinct
  apart s special p mem same := by
    have small := byteVocabulary_rank mem
    have large := high s special
    rw [same] at large
    omega

theorem byteVocabulary_wellFormed : WellFormedVocabulary byteVocabulary endSpecial :=
  byteVocabulary_wellFormed_of endSpecial (by decide) (by decide)

theorem decodeBytes_encode_bytes :
    WellFormedVocabulary byteVocabulary endSpecial ∧ SegmenterBounded (o200kNext asciiTables) ∧
      ((∀ text allowed, (newCoreBPE byteVocabulary endSpecial (o200kNext asciiTables)).decodeBytes
          ((newCoreBPE byteVocabulary endSpecial (o200kNext asciiTables)).encode text allowed).1 = .ok text) ∧
        ∀ text, (newCoreBPE byteVocabulary endSpecial (o200kNext asciiTables)).decodeUTF8
          ((newCoreBPE byteVocabulary endSpecial (o200kNext asciiTables)).encodeOrdinary text) = .ok text) :=
  ⟨byteVocabulary_wellFormed, o200kNext_bounded asciiTables,
    decodeBytes_encode_newCoreBPE byteVocabulary endSpecial (o200kNext asciiTables) byteVocabulary_wellFormed
      (o200kNext_bounded asciiTables)⟩

end Harmony
