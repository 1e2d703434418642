import Harmony.Format.MessageJsonRender

set_option autoImplicit false

namespace Harmony

open ToolSchema Utf8

namespace Utf8

theorem decodeLead_take_append {s0 : UInt8} {rest : ByteString} (valid : (decodeLead s0 rest).2 ≠ 1) (t : ByteString) :
    decodeLead s0 (rest.take ((decodeLead s0 rest).2 - 1) ++ t) = decodeLead s0 rest := by
  cases lead : leadRange s0 with
  | none => simp [decodeLead, lead] at valid
  | some r =>
    obtain ⟨sz, lo, hi⟩ := r
    have shape := leadRange_shape lead
    rcases rest with _ | ⟨s1, rest⟩
    · simp [decodeLead, lead] at valid
    by_cases short : rest.length + 1 + 1 < sz
    · simp [decodeLead, lead, short] at valid
    by_cases bad1 : s1.toNat < lo ∨ hi < s1.toNat
    · simp [decodeLead, lead, short, bad1] at valid
    by_cases two : sz ≤ 2
    · have fits : ¬ t.length + 1 + 1 < sz := by omega
      simp only [decodeLead, lead, short, bad1, two, fits, if_false, if_true, List.take_succ_cons, List.take_zero, List.length_cons,
        List.singleton_append]
    rcases rest with _ | ⟨s2, rest⟩
    · simp [decodeLead, lead, short, bad1, two] at valid
    simp only [List.length_cons] at short
    by_cases bad2 : s2.toNat < 0x80 ∨ 0xBF < s2.toNat
    · simp [decodeLead, lead, short, bad1, two, bad2] at valid
    by_cases three : sz ≤ 3
    · have fits : ¬ t.length + 1 + 1 + 1 < sz := by omega
      simp only [decodeLead, lead, short, bad1, two, bad2, three, fits, if_false, if_true, List.take_succ_cons, List.length_cons,
        List.take_zero, List.cons_append, List.nil_append]
    rcases rest with _ | ⟨s3, rest⟩
    · simp [decodeLead, lead, short, bad1, two, bad2, three] at valid
    simp only [List.length_cons] at short
    by_cases bad3 : s3.toNat < 0x80 ∨ 0xBF < s3.toNat
    · simp [decodeLead, lead, short, bad1, two, bad2, three, bad3] at valid
    have fits : ¬ t.length + 1 + 1 + 1 + 1 < sz := by omega
    simp only [decodeLead, lead, short, bad1, two, bad2, three, bad3, fits, if_false, List.take_succ_cons, List.length_cons,
      List.take_zero, List.cons_append, List.nil_append]

theorem decodeLead_error_or_long (s0 : UInt8) (rest : ByteString) :
    decodeLead s0 rest = (runeError, 1) ∨ 2 ≤ (decodeLead s0 rest).2 := by
  unfold decodeLead
  repeat' split
  all_goals first | exact .inl rfl | exact .inr (Nat.le_refl _) | exact .inr (by omega)

theorem decodeRuneInString_take_append {s : ByteString} (nonempty : s ≠ [])
    (valid : ¬ ((decodeRuneInString s).1 = runeError ∧ (decodeRuneInString s).2 = 1)) (t : ByteString) :
    decodeRuneInString (s.take (decodeRuneInString s).2 ++ t) = decodeRuneInString s := by
  obtain ⟨b, rest, rfl⟩ := List.exists_cons_of_ne_nil nonempty
  by_cases small : b < runeSelf
  · simp [decodeRuneInString_ascii _ small]
  · rw [decodeRuneInString_lead _ small] at valid ⊢
    have long : (decodeLead b rest).2 ≠ 1 := by
      rcases decodeLead_error_or_long b rest with error | long
      · exact absurd ⟨by rw [error], by rw [error]⟩ valid
      · omega
    obtain ⟨n, sized⟩ : ∃ n, (decodeLead b rest).2 = n + 1 := ⟨_, (Nat.succ_pred_eq_of_pos (by
      have := decodeLead_size b rest; omega)).symm⟩
    rw [sized, List.take_succ_cons, List.cons_append, decodeRuneInString_lead _ small]
    have same := decodeLead_take_append long t
    rwa [sized, Nat.add_sub_cancel] at same

theorem validFrom_append_rune {piece : ByteString} (nonempty : piece ≠ [])
    (reads : ∀ t, decodeRuneInString (piece ++ t) = decodeRuneInString piece)
    (ok : ¬ ((decodeRuneInString piece).1 = runeError ∧ (decodeRuneInString piece).2 = 1))
    (sized : (decodeRuneInString piece).2 = piece.length) (fuel : Nat) (rest : ByteString) :
    validFrom (fuel + 1) (piece ++ rest) = validFrom fuel rest := by
  obtain ⟨c, cs, split⟩ : ∃ c cs, piece ++ rest = c :: cs := List.exists_cons_of_ne_nil (by simp [nonempty])
  rw [split]
  simp only [validFrom]
  rw [← split, reads, if_neg ok, sized, List.drop_left]

theorem validFrom_coerceFrom : ∀ (fuel : Nat) (s : ByteString), s.length ≤ fuel → ∀ fuel',
    (coerceFrom fuel s).length ≤ fuel' → validFrom fuel' (coerceFrom fuel s) = true
  | 0, s, short, fuel', _ => by
    rw [List.length_eq_zero.mp (Nat.le_zero.mp short)]
    cases fuel' <;> rfl
  | _ + 1, [], _, fuel', _ => by
    cases fuel' <;> rfl
  | fuel + 1, b :: rest, short, fuel', long => by
    have sized := decodeRuneInString_size b rest
    have next : (List.drop (decodeRuneInString (b :: rest)).2 (b :: rest)).length ≤ fuel := by
      simp only [List.length_drop, List.length_cons] at short ⊢
      omega
    simp only [coerceFrom] at long ⊢
    split_ifs at long ⊢ with error
    · obtain ⟨f, rfl⟩ : ∃ f, fuel' = f + 1 := Nat.exists_eq_succ_of_ne_zero (by simp at long; omega)
      have replacement : decodeRuneInString [0xEF, 0xBF, 0xBD] = (runeError, 3) := rfl
      have reads : ∀ t, decodeRuneInString ([0xEF, 0xBF, 0xBD] ++ t) = decodeRuneInString [0xEF, 0xBF, 0xBD] :=
        fun t => by
          simpa only [replacement] using
            decodeRuneInString_take_append (List.cons_ne_nil (0xEF : UInt8) [0xBF, 0xBD]) (by rw [replacement]; decide) t
      rw [validFrom_append_rune (List.cons_ne_nil _ _) reads (by rw [replacement]; decide) (by rw [replacement]; rfl)]
      exact validFrom_coerceFrom fuel _ next f (by simp at long; omega)
    · have taken : ((b :: rest).take (decodeRuneInString (b :: rest)).2).length = (decodeRuneInString (b :: rest)).2 := by
        simp only [List.length_take, List.length_cons]
        omega
      obtain ⟨f, rfl⟩ : ∃ f, fuel' = f + 1 := Nat.exists_eq_succ_of_ne_zero (by
        simp only [List.length_append, taken] at long; omega)
      have reads := decodeRuneInString_take_append (List.cons_ne_nil b rest) error
      have own : decodeRuneInString ((b :: rest).take (decodeRuneInString (b :: rest)).2) = decodeRuneInString (b :: rest) := by
        simpa only [List.append_nil] using reads []
      rw [validFrom_append_rune (List.ne_nil_of_length_pos (by rw [taken]; omega)) (fun t => (reads t).trans own.symm)
        (by rw [own]; exact error) (by rw [own, taken])]
      exact validFrom_coerceFrom fuel _ next f (by simp only [List.length_append, taken] at long; omega)

theorem validString_coerce (s : ByteString) : validString (coerce s) = true :=
  validFrom_coerceFrom _ _ (Nat.le_refl _) _ (Nat.le_refl _)

@[simp] theorem coerce_coerce (s : ByteString) : coerce (coerce s) = coerce s :=
  coerce_of_valid (validString_coerce s)

@[simp] theorem coerce_comp_coerce : coerce ∘ coerce = coerce := funext coerce_coerce

end Utf8

theorem sortByKey_perm {α : Type} {es es' : List (ByteString × α)} (perm : es.Perm es')
    (distinct : (es.map Prod.fst).Nodup) : sortByKey es = sortByKey es' := by
  have sorted : ∀ l : List (ByteString × α), (sortByKey l).Sorted fun a b => decide (a.1 ≤ b.1) = true := fun l =>
    List.sorted_mergeSort
      (fun a b c ab bc => by
        simp only [decide_eq_true_eq] at ab bc ⊢
        intro ca
        rcases bytes_lt_trichotomy a.1 b.1 with less | same | more
        · exact bc (bytes_lt_trans ca less)
        · exact bc (same ▸ ca)
        · exact ab more)
      (fun a b => by
        simp only [Bool.or_eq_true, decide_eq_true_eq]
        by_contra both
        push_neg at both
        exact bytes_lt_asymm (not_not.mp both.1) (not_not.mp both.2))
      l
  have strict : ∀ l : List (ByteString × α), l.Perm es → (sortByKey l).Sorted fun a b => a.1.lt b.1 := by
    intro l same
    have keys : ((sortByKey l).map Prod.fst).Nodup :=
      ((((List.mergeSort_perm _ _).trans same).map Prod.fst).nodup_iff).mpr distinct
    refine ((sorted l).and (List.pairwise_map.mp keys)).imp fun {a b} ⟨le, ne⟩ => ?_
    simp only [decide_eq_true_eq] at le
    rcases bytes_lt_trichotomy a.1 b.1 with less | same | more
    · exact less
    · exact absurd same ne
    · exact absurd more le
  haveI : IsAntisymm (ByteString × α) fun a b => a.1.lt b.1 :=
    ⟨fun _ _ ab ba => absurd ba (bytes_lt_asymm ab)⟩
  exact List.eq_of_perm_of_sorted (((List.mergeSort_perm _ _).trans perm).trans (List.mergeSort_perm _ _).symm)
    (strict es (List.Perm.refl _)) (strict es' perm.symm)

theorem toolsJson_same (lib : JsonLib) {m m' : GoMap ByteString ToolNamespaceConfig} (same : m.Same m') :
    toolsJson lib m = toolsJson lib m' := by
  unfold toolsJson
  rw [sortByKey_perm same.perm m.keys_nodup]
  simp only [same.entries_eq_nil]

theorem mapM_map_of_agree {α β ε : Type} {f : α → α} {g : α → Except ε β} :
    ∀ {l : List α}, (∀ x ∈ l, g (f x) = g x) → (l.map f).mapM g = l.mapM g
  | [], _ => rfl
  | x :: xs, agree => by
    rw [List.map_cons, List.mapM_cons, List.mapM_cons, agree x (List.mem_cons_self _ _),
      mapM_map_of_agree fun y mem => agree y (List.mem_cons_of_mem _ mem)]

section Stable

variable {lib : JsonLib} (stable : RawStable lib)
include stable

theorem readBackToolDescription_idem (t : ToolDescription) :
    readBackToolDescription lib (readBackToolDescription lib t) = readBackToolDescription lib t := by
  by_cases empty : t.parameters = []
  · simp [readBackToolDescription, empty]
  · cases raw : lib.rawTree t.parameters with
    | error e => simp [readBackToolDescription, empty, raw]
    | ok v =>
      obtain ⟨again, kept⟩ := stable _ _ raw
      simp [readBackToolDescription, empty, raw, again, kept]

theorem readBackToolNamespace_idem (ns : ToolNamespaceConfig) :
    readBackToolNamespace lib (readBackToolNamespace lib ns) = readBackToolNamespace lib ns := by
  simp [readBackToolNamespace, Function.comp_def, readBackToolDescription_idem stable]

theorem readBackTools_entries (tools : GoMap ByteString ToolNamespaceConfig) :
    ∀ e ∈ (readBackTools lib tools).entries, validString e.1 = true ∧ readBackToolNamespace lib e.2 = e.2 := by
  refine foldl_invariant (I := fun m : GoMap ByteString ToolNamespaceConfig =>
      ∀ e ∈ m.entries, validString e.1 = true ∧ readBackToolNamespace lib e.2 = e.2)
    (fun m e _ earlier x mem => ?_) _ (fun _ absent => absurd absent (List.not_mem_nil _))
  simp only [GoMap.insert, List.mem_append, List.mem_filter, List.mem_singleton] at mem
  rcases mem with ⟨old, -⟩ | rfl
  · exact earlier x old
  · exact ⟨validString_coerce _, readBackToolNamespace_idem stable _⟩

theorem readBackTools_idem (tools : GoMap ByteString ToolNamespaceConfig) :
    (readBackTools lib (readBackTools lib tools)).Same (readBackTools lib tools) := by
  have entries := readBackTools_entries stable tools
  intro k
  rw [readBackTools_same lib (fun e mem => (entries e mem).1) k, GoMap.get?_mapValues]
  cases found : (readBackTools lib tools).get? k with
  | none => rfl
  | some ns => exact congrArg some (entries _ (GoMap.mem_of_get? _ found)).2

omit stable in
theorem readBackChannelConfig_idem : readBackChannelConfig ∘ readBackChannelConfig = readBackChannelConfig :=
  funext fun c => by simp [readBackChannelConfig]

theorem systemContentJson_readBack_idem (s : SystemContent) :
    systemContentJson lib (readBackSystemContent lib (readBackSystemContent lib s)) =
      systemContentJson lib (readBackSystemContent lib s) := by
  simp only [systemContentJson, readBackSystemContent, toolsJson_same lib (readBackTools_idem stable s.tools),
    Option.map_map, coerce_comp_coerce, readBackChannelConfig_idem]

theorem developerContentJson_readBack_idem (d : DeveloperContent) :
    developerContentJson lib (readBackDeveloperContent lib (readBackDeveloperContent lib d)) =
      developerContentJson lib (readBackDeveloperContent lib d) := by
  simp only [developerContentJson, readBackDeveloperContent, toolsJson_same lib (readBackTools_idem stable d.tools),
    Option.map_map, coerce_comp_coerce]

theorem contentJson_readBack_idem (c : Content) :
    contentJson lib (readBackContent lib (readBackContent lib c)) = contentJson lib (readBackContent lib c) := by
  obtain ⟨type, text, system, developer⟩ := c
  cases system <;> cases developer <;>
    simp only [contentJson, readBackContent, coerce_coerce, Option.map_none', Option.map_some', Option.mapM,
      systemContentJson_readBack_idem stable, developerContentJson_readBack_idem stable]

omit stable in
@[simp] theorem readBackContent_type (c : Content) : (readBackContent lib c).type = coerce c.type := rfl

omit stable in
theorem contentsJson_of_two {l : List Content} (long : 2 ≤ l.length) :
    contentsJson lib l = sliceJson <$> l.mapM (contentJson lib) :=
  match l, long with
  | _ :: _ :: _, _ => rfl

theorem contentsJson_readBack_idem (cs : List Content) :
    contentsJson lib (readBackContents lib (readBackContents lib cs)) = contentsJson lib (readBackContents lib cs) := by
  match cs with
  | [] => rfl
  | [c] =>
    by_cases text : c.type = contentText
    · simp only [readBackContents, text, if_true, textContent, coerce_coerce]
    · simp only [readBackContents, text, if_false]
      by_cases again : (readBackContent lib c).type = contentText
      · simp only [again, if_true, contentsJson, textContent, stringJson, coerce_coerce]
      · simp only [readBackContent_type] at again
        simp only [contentsJson, readBackContent_type, coerce_coerce, again, if_false, List.mapM_cons, List.mapM_nil,
          contentJson_readBack_idem stable]
  | c₁ :: c₂ :: cs =>
    have agree : ∀ c ∈ (c₁ :: c₂ :: cs).map (readBackContent lib),
        contentJson lib (readBackContent lib c) = contentJson lib c := by
      intro c mem
      obtain ⟨c', -, rfl⟩ := List.mem_map.mp mem
      exact contentJson_readBack_idem stable c'
    show contentsJson lib (((c₁ :: c₂ :: cs).map (readBackContent lib)).map (readBackContent lib)) =
      contentsJson lib ((c₁ :: c₂ :: cs).map (readBackContent lib))
    rw [contentsJson_of_two (by simp), contentsJson_of_two (by simp), mapM_map_of_agree agree]

theorem marshalJSON_readBack_idem (m : Message) :
    Message.marshalJSON lib ((m.readBack lib).readBack lib) = Message.marshalJSON lib (m.readBack lib) := by
  simp only [Message.marshalJSON, Message.readBack, coerce_coerce, contentsJson_readBack_idem stable]

end Stable

theorem marshalJSON_fixpoint {lib : JsonLib} (stable : RawStable lib) :
    (∀ {m : Message} {v : Json}, Message.marshalJSON lib (m.readBack lib) = .ok v →
      ∃ m', Message.unmarshalJSON lib v = .ok m' ∧ Message.marshalJSON lib m' = .ok v) ∧
    (∀ {conv : Conversation} {v : Json}, conversationJson lib ⟨conv.messages.map (Message.readBack lib)⟩ = .ok v →
      ∃ conv', decodeConversation lib v = .ok conv' ∧ conversationJson lib conv' = .ok v) := by
  refine ⟨fun written => ⟨_, unmarshalJSON_marshalJSON lib written, ?_⟩,
    fun {conv v} written => ⟨_, decodeConversation_json lib written, ?_⟩⟩
  · rw [marshalJSON_readBack_idem stable, written]
  · have agree : ∀ m ∈ conv.messages.map (Message.readBack lib),
        Message.marshalJSON lib (m.readBack lib) = Message.marshalJSON lib m := by
      intro m mem
      obtain ⟨m', -, rfl⟩ := List.mem_map.mp mem
      exact marshalJSON_readBack_idem stable m'
    rw [← written]
    simp only [conversationJson, mapM_map_of_agree agree]

theorem marshalJSON_fixpoint_weather :
    RawStable weatherLib ∧
    (∀ {m : Message} {v : Json}, Message.marshalJSON weatherLib (m.readBack weatherLib) = .ok v →
      ∃ m', Message.unmarshalJSON weatherLib v = .ok m' ∧ Message.marshalJSON weatherLib m' = .ok v) ∧
    (∀ {conv : Conversation} {v : Json},
      conversationJson weatherLib ⟨conv.messages.map (Message.readBack weatherLib)⟩ = .ok v →
      ∃ conv', decodeConversation weatherLib v = .ok conv' ∧ conversationJson weatherLib conv' = .ok v) :=
  ⟨weatherLib_rawStable, marshalJSON_fixpoint weatherLib_rawStable⟩

end Harmony
