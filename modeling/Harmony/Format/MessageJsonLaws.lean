import Harmony.Format.MessageJson

set_option autoImplicit false

namespace Harmony

open ToolSchema Utf8

section ReadBack

variable (lib : JsonLib)

def readBackToolDescription (t : ToolDescription) : ToolDescription :=
  ⟨coerce t.name, coerce t.description,
    if t.parameters = [] then [] else match lib.rawTree t.parameters with
      | .ok v => lib.rawText v
      | .error _ => t.parameters⟩

def readBackToolNamespace (ns : ToolNamespaceConfig) : ToolNamespaceConfig :=
  ⟨coerce ns.name, ns.description.map coerce, ns.tools.map (readBackToolDescription lib)⟩

-- The entries are written in key order and stored back in that order, so of two keys that read back
-- alike the later one wins.
def readBackTools (tools : GoMap ByteString ToolNamespaceConfig) : GoMap ByteString ToolNamespaceConfig :=
  (sortByKey tools.entries).foldl (fun m e => m.insert (coerce e.1) (readBackToolNamespace lib e.2)) GoMap.empty

def readBackChannelConfig (c : ChannelConfig) : ChannelConfig := ⟨c.validChannels.map coerce, c.channelRequired⟩

def readBackSystemContent (s : SystemContent) : SystemContent :=
  ⟨s.modelIdentity.map coerce, s.reasoningEffort.map coerce, readBackTools lib s.tools,
    s.conversationStartDate.map coerce, s.knowledgeCutoff.map coerce, s.channelConfig.map readBackChannelConfig⟩

def readBackDeveloperContent (d : DeveloperContent) : DeveloperContent :=
  ⟨d.instructions.map coerce, readBackTools lib d.tools⟩

def readBackContent (c : Content) : Content :=
  ⟨coerce c.type, coerce c.text, c.system.map (readBackSystemContent lib), c.developer.map (readBackDeveloperContent lib)⟩

-- No content reads back as one empty text item, and one text item drops whatever else it carried.
def readBackContents : List Content → List Content
  | [] => [textContent []]
  | [c] => if c.type = contentText then [textContent (coerce c.text)] else [readBackContent lib c]
  | cs => cs.map (readBackContent lib)

def Message.readBack (m : Message) : Message :=
  ⟨⟨coerce m.author.role, coerce m.author.name⟩, coerce m.recipient, readBackContents lib m.content,
    coerce m.channel, coerce m.contentType⟩

end ReadBack

theorem except_bind_eq_ok {ε α β : Type} {x : Except ε α} {f : α → Except ε β} {r : β} :
    x >>= f = .ok r ↔ ∃ a, x = .ok a ∧ f a = .ok r := by
  cases x <;> simp [bind, Except.bind]

theorem except_map_eq_ok {ε α β : Type} {x : Except ε α} {f : α → β} {r : β} :
    f <$> x = .ok r ↔ ∃ a, x = .ok a ∧ f a = r := by
  cases x <;> simp [Functor.map, Except.map]

theorem except_bind_eq_error {ε α β : Type} {x : Except ε α} {f : α → Except ε β} {err : ε} (failed : x >>= f = .error err) :
    x = .error err ∨ ∃ a, x = .ok a ∧ f a = .error err := by
  cases x <;> simp_all [bind, Except.bind]

theorem mapM_eq_error {β γ ε : Type} {f : β → Except ε γ} {err : ε} :
    ∀ {xs : List β}, xs.mapM f = .error err → ∃ x ∈ xs, f x = .error err
  | [], failed => by cases failed
  | x :: xs, failed => by
    rw [List.mapM_cons] at failed
    rcases except_bind_eq_error failed with here | ⟨_, -, later⟩
    · exact ⟨x, List.mem_cons_self _ _, here⟩
    · rcases except_bind_eq_error later with there | ⟨_, -, done⟩
      · obtain ⟨y, mem, hy⟩ := mapM_eq_error there
        exact ⟨y, List.mem_cons_of_mem _ mem, hy⟩
      · cases done

theorem foldl_invariant {α β : Type} {I : α → Prop} {f : α → β → α} {bs : List β}
    (step : ∀ a, ∀ b ∈ bs, I a → I (f a b)) : ∀ a, I a → I (bs.foldl f a) := by
  induction bs with
  | nil => exact fun _ holds => holds
  | cons b bs more =>
    exact fun a holds => more (fun a' b' mem => step a' b' (List.mem_cons_of_mem _ mem)) _
      (step a b (List.mem_cons_self _ _) holds)

@[simp] theorem decodeMap_object {α : Type} (type : ByteString) (zero : α) (dec : Decoder α) (ctx : DecodeContext)
    (members : List (ByteString × Json)) (m : GoMap ByteString α) :
    decodeMap type zero dec ctx (.object members) m = members.foldl (decodeMapMember zero dec ctx) (m, none) := rfl

@[simp] theorem decodeStruct_object {σ : Type} (toUpper : Nat → Nat) (struct type : ByteString) (fields : List (Field σ))
    (ctx : DecodeContext) (members : List (ByteString × Json)) (s : σ) :
    decodeStruct toUpper struct type fields ctx (.object members) s =
      members.foldl (decodeMember toUpper struct fields ctx) (s, none) := rfl

section Members

variable {σ : Type} (step : σ × Option TypeError → ByteString × Json → σ × Option TypeError) (acc : σ × Option TypeError)

theorem foldl_omitEmpty {name : String} (empty : step acc (ascii name, stringJson []) = acc) (s : ByteString) :
    (omitEmpty name s).foldl step acc = step acc (ascii name, stringJson s) := by
  unfold omitEmpty
  split
  · subst s
    exact empty.symm
  · rfl

theorem foldl_omitNil {α : Type} {name : String} {enc : α → Json} (empty : step acc (ascii name, .null) = acc)
    (o : Option α) : (omitNil name enc o).foldl step acc = step acc (ascii name, (o.map enc).getD .null) := by
  cases o
  · exact empty.symm
  · rfl

end Members

section Values

variable {α β : Type} {zero : α} {dec : Decoder α} {ctx : DecodeContext}

theorem decodePointer_getD (ctx : DecodeContext) {enc : β → Json} {rb : β → α} (back : ∀ x, dec ctx (enc x) zero = (rb x, none))
    (nonnull : ∀ x, enc x ≠ .null) (o : Option β) :
    decodePointer zero dec ctx ((o.map enc).getD .null) none = (o.map rb, none) := by
  cases o with
  | none => rfl
  | some x =>
    simp only [decodePointer, Option.map_some', Option.getD_some]
    split
    · exact absurd ‹_› (nonnull x)
    · simp [back]

@[simp] theorem decodeString_stringJson (type : ByteString) (ctx : DecodeContext) (s old : ByteString) :
    decodeString type ctx (stringJson s) old = (coerce s, none) := rfl

@[simp] theorem decodePointer_stringJson (type : ByteString) (ctx : DecodeContext) (o : Option ByteString) :
    decodePointer [] (decodeString type) ctx ((o.map stringJson).getD .null) none = (o.map coerce, none) :=
  decodePointer_getD ctx (fun _ => rfl) (fun _ h => Json.noConfusion h) o

theorem decodePointer_mapM (ctx : DecodeContext) {enc : β → Except ByteString Json} {rb : β → α}
    (back : ∀ x v, enc x = .ok v → dec ctx v zero = (rb x, none)) (nonnull : ∀ x v, enc x = .ok v → v ≠ .null)
    {o : Option β} {r : Option Json} (written : o.mapM enc = .ok r) :
    decodePointer zero dec ctx ((r.map id).getD .null) none = (o.map rb, none) := by
  cases o with
  | none =>
    cases written
    rfl
  | some x =>
    obtain ⟨v, hv, done⟩ := except_bind_eq_ok.mp written
    cases done
    simp only [decodePointer, Option.map_some', id, Option.getD_some]
    split
    · exact absurd rfl (nonnull x _ hv)
    · simp [back x v hv]

theorem decodeElements_forall₂ {enc : β → Json → Prop} {rb : β → α}
    (back : ∀ x v, enc x v → dec ctx v zero = (rb x, none)) :
    ∀ {xs : List β} {vs : List Json}, List.Forall₂ enc xs vs → decodeElements zero dec ctx vs [] = (xs.map rb, none)
  | _, _, .nil => rfl
  | _, _, .cons head tail => by
    simp only [decodeElements, List.headD_nil, List.tail_nil, back _ _ head, decodeElements_forall₂ back tail,
      List.map_cons, Option.or_none]

theorem forall₂_of_mapM {f : β → Except ByteString Json} :
    ∀ {xs : List β} {vs : List Json}, xs.mapM f = .ok vs → List.Forall₂ (fun x v => f x = .ok v) xs vs
  | [], _, written => by
    cases written
    exact .nil
  | x :: xs, vs, written => by
    rw [List.mapM_cons] at written
    obtain ⟨v, hv, rest⟩ := except_bind_eq_ok.mp written
    obtain ⟨vs', hvs, done⟩ := except_bind_eq_ok.mp rest
    cases done
    exact .cons hv (forall₂_of_mapM hvs)

theorem mapM_of_forall₂ {γ ε : Type} {enc : β → Json → Prop} {dec : Json → Except ε γ} {rb : β → γ}
    (back : ∀ x v, enc x v → dec v = .ok (rb x)) :
    ∀ {xs : List β} {vs : List Json}, List.Forall₂ enc xs vs → vs.mapM dec = .ok (xs.map rb)
  | _, _, .nil => rfl
  | _, _, .cons head tail => by
    simp only [List.mapM_cons, back _ _ head, mapM_of_forall₂ back tail, List.map_cons]
    rfl

theorem decodeSlice_sliceJson {type : ByteString} {rb : β → α} {enc : β → Json → Prop}
    (back : ∀ x v, enc x v → dec ctx v zero = (rb x, none)) {xs : List β} {vs : List Json}
    (written : List.Forall₂ enc xs vs) : decodeSlice type zero dec ctx (sliceJson vs) [] = (xs.map rb, none) := by
  cases written with
  | nil => rfl
  | cons head tail => exact decodeElements_forall₂ back (.cons head tail)

end Values

section Structs

variable (lib : JsonLib)

theorem decodeToolDescription_json {t : ToolDescription} {v : Json} (written : toolDescriptionJson lib t = .ok v)
    (ctx : DecodeContext) : decodeToolDescription lib ctx v zeroToolDescription = (readBackToolDescription lib t, none) := by
  unfold toolDescriptionJson at written
  by_cases params : t.parameters = []
  · simp only [params, if_true, bind, Except.bind, pure, Except.pure, Except.ok.injEq, List.append_nil] at written
    subst written
    simp only [readBackToolDescription, params, if_true]
    rfl
  · cases raw : lib.rawTree t.parameters with
    | error e => simp [params, raw, bind, Except.bind] at written
    | ok tree =>
      simp only [params, if_false, raw, bind, Except.bind, pure, Except.pure, Except.ok.injEq] at written
      subst written
      simp only [readBackToolDescription, params, if_false, raw]
      rfl

theorem decodeToolNamespaceConfig_json {ns : ToolNamespaceConfig} {v : Json} (written : toolNamespaceJson lib ns = .ok v)
    (ctx : DecodeContext) :
    decodeToolNamespaceConfig lib ctx v zeroToolNamespaceConfig = (readBackToolNamespace lib ns, none) := by
  obtain ⟨tools, toolsWritten, done⟩ := except_bind_eq_ok.mp written
  simp only [pure, Except.pure, Except.ok.injEq] at done
  subst done
  have described : decodeSlice (ascii "[]harmony.ToolDescription") zeroToolDescription (decodeToolDescription lib)
      (ctx.enter (ascii "ToolNamespaceConfig") (ascii "tools")) (sliceJson tools) [] =
      (ns.tools.map (readBackToolDescription lib), none) :=
    decodeSlice_sliceJson (fun t v (written : toolDescriptionJson lib t = .ok v) => decodeToolDescription_json lib written _)
      (forall₂_of_mapM toolsWritten)
  rw [decodeToolNamespaceConfig, decodeStruct_object, List.foldl_append, List.foldl_append, foldl_omitNil]
  · simp +decide only [List.foldl_cons, List.foldl_nil, decodeMember, matchField, toolNamespaceFields, Field.of,
      List.find?_cons, List.find?_nil, decide_False, decide_True, Option.or_some, zeroToolNamespaceConfig,
      decodeString_stringJson, decodePointer_stringJson, described, Option.none_or, readBackToolNamespace]
  · rfl

theorem decodeChannelConfig_json (c : ChannelConfig) (ctx : DecodeContext) :
    decodeChannelConfig lib ctx (channelConfigJson c) zeroChannelConfig = (readBackChannelConfig c, none) := by
  have channels : decodeSlice (ascii "[]string") [] (decodeString stringType)
      (ctx.enter (ascii "ChannelConfig") (ascii "valid_channels")) (sliceJson (c.validChannels.map stringJson)) [] =
      (c.validChannels.map coerce, none) :=
    decodeSlice_sliceJson (fun s v (written : stringJson s = v) => written ▸ rfl)
      (List.forall₂_map_right_iff.mpr (List.forall₂_same.mpr fun _ _ => rfl))
  rw [decodeChannelConfig, channelConfigJson, decodeStruct_object]
  simp +decide only [List.foldl_cons, List.foldl_nil, decodeMember, matchField, channelConfigFields, Field.of,
    List.find?_cons, List.find?_nil, decide_False, decide_True, Option.or_some, zeroChannelConfig, channels, decodeBool,
    Option.none_or, readBackChannelConfig]

theorem foldl_decodeMapMember (ctx : DecodeContext) :
    ∀ {es : List (ByteString × ToolNamespaceConfig)} {members : List (ByteString × Json)},
      es.mapM (fun e => do pure (coerce e.1, ← toolNamespaceJson lib e.2)) = .ok members →
      ∀ acc : GoMap ByteString ToolNamespaceConfig,
        members.foldl (decodeMapMember zeroToolNamespaceConfig (decodeToolNamespaceConfig lib) ctx) (acc, none) =
          (es.foldl (fun m e => m.insert (coerce e.1) (readBackToolNamespace lib e.2)) acc, none)
  | [], _, written, _ => by
    cases written
    rfl
  | e :: es, _, written, acc => by
    rw [List.mapM_cons] at written
    obtain ⟨member, entryWritten, rest⟩ := except_bind_eq_ok.mp written
    obtain ⟨members, restWritten, done⟩ := except_bind_eq_ok.mp rest
    cases done
    obtain ⟨nsv, nsWritten, done⟩ := except_bind_eq_ok.mp entryWritten
    cases done
    simp only [List.foldl_cons, decodeMapMember, decodeToolNamespaceConfig_json lib nsWritten, Option.or_none]
    exact foldl_decodeMapMember ctx restWritten _

theorem decodeTools_json {tools : GoMap ByteString ToolNamespaceConfig} {tv : Option Json}
    (written : toolsJson lib tools = .ok tv) (ctx : DecodeContext) :
    decodeTools lib ctx ((tv.map id).getD .null) GoMap.empty = (readBackTools lib tools, none) := by
  unfold toolsJson at written
  split at written
  · cases written
    simp only [readBackTools, sortByKey, ‹tools.entries = []›, List.mergeSort_nil, List.foldl_nil]
    rfl
  · obtain ⟨members, membersWritten, rfl⟩ := except_map_eq_ok.mp written
    exact foldl_decodeMapMember lib ctx membersWritten _

theorem decodeSystemContent_json {s : SystemContent} {v : Json} (written : systemContentJson lib s = .ok v)
    (ctx : DecodeContext) : decodeSystemContent lib ctx v zeroSystemContent = (readBackSystemContent lib s, none) := by
  obtain ⟨tv, toolsWritten, done⟩ := except_bind_eq_ok.mp written
  cases done
  have config : decodePointer zeroChannelConfig (decodeChannelConfig lib)
      (ctx.enter (ascii "SystemContent") (ascii "channel_config")) ((s.channelConfig.map channelConfigJson).getD .null)
      none = (s.channelConfig.map readBackChannelConfig, none) :=
    decodePointer_getD _ (fun c => decodeChannelConfig_json lib c _) (fun _ h => Json.noConfusion h) _
  rw [decodeSystemContent, decodeStruct_object]
  simp +decide (disch := with_unfolding_all rfl) only [List.foldl_append, foldl_omitNil, List.foldl_cons,
    List.foldl_nil, decodeMember, matchField, systemContentFields, Field.of, List.find?_cons, List.find?_nil,
    decide_False, decide_True, Option.or_some, zeroSystemContent, decodePointer_stringJson,
    decodeTools_json lib toolsWritten, config, Option.none_or, readBackSystemContent]

theorem decodeDeveloperContent_json {d : DeveloperContent} {v : Json} (written : developerContentJson lib d = .ok v)
    (ctx : DecodeContext) :
    decodeDeveloperContent lib ctx v zeroDeveloperContent = (readBackDeveloperContent lib d, none) := by
  obtain ⟨tv, toolsWritten, done⟩ := except_bind_eq_ok.mp written
  cases done
  rw [decodeDeveloperContent, decodeStruct_object]
  simp +decide (disch := with_unfolding_all rfl) only [List.foldl_append, foldl_omitNil, List.foldl_cons,
    List.foldl_nil, decodeMember, matchField, developerContentFields, Field.of, List.find?_cons, List.find?_nil,
    decide_False, decide_True, Option.or_some, zeroDeveloperContent, decodePointer_stringJson,
    decodeTools_json lib toolsWritten, Option.none_or, readBackDeveloperContent]

theorem decodeContent_json {c : Content} {v : Json} (written : contentJson lib c = .ok v) (ctx : DecodeContext) :
    decodeContent lib ctx v zeroContent = (readBackContent lib c, none) := by
  obtain ⟨sv, systemWritten, rest⟩ := except_bind_eq_ok.mp written
  obtain ⟨dv, developerWritten, done⟩ := except_bind_eq_ok.mp rest
  cases done
  have system := decodePointer_mapM (ctx.enter (ascii "Content") (ascii "system_content"))
    (fun s v (written : systemContentJson lib s = .ok v) => decodeSystemContent_json lib written _)
    (fun s v written => by obtain ⟨_, _, done⟩ := except_bind_eq_ok.mp written; cases done; exact nofun)
    systemWritten
  have developer := decodePointer_mapM (ctx.enter (ascii "Content") (ascii "developer_content"))
    (fun d v (written : developerContentJson lib d = .ok v) => decodeDeveloperContent_json lib written _)
    (fun d v written => by obtain ⟨_, _, done⟩ := except_bind_eq_ok.mp written; cases done; exact nofun)
    developerWritten
  rw [decodeContent, decodeStruct_object]
  simp +decide (disch := with_unfolding_all rfl) only [List.foldl_append, foldl_omitNil, foldl_omitEmpty,
    List.foldl_cons, List.foldl_nil, decodeMember, matchField, contentFields, Field.of, List.find?_cons, List.find?_nil,
    decide_False, decide_True, Option.or_some, zeroContent, decodeString_stringJson, system, developer,
    Option.none_or, readBackContent]

theorem unmarshalContent_list {cs : List Content} {vs : List Json} (written : cs.mapM (contentJson lib) = .ok vs)
    (nonempty : cs ≠ []) : unmarshalContent lib (some (sliceJson vs)) = .ok (cs.map (readBackContent lib)) := by
  have items := forall₂_of_mapM written
  have decoded : decodeSlice (ascii "[]harmony.Content") zeroContent (decodeContent lib) none (sliceJson vs) [] =
      (cs.map (readBackContent lib), none) :=
    decodeSlice_sliceJson (fun c v (written : contentJson lib c = .ok v) => decodeContent_json lib written _) items
  cases items with
  | nil => exact absurd rfl nonempty
  | cons =>
    simp only [sliceJson] at decoded
    simp only [unmarshalContent, decodeString, sliceJson, decoded]

theorem unmarshalContent_json : ∀ {cs : List Content} {cv : Json}, contentsJson lib cs = .ok cv →
    unmarshalContent lib (some cv) = .ok (readBackContents lib cs)
  | [], _, written => by
    cases written
    rfl
  | [c], _, written => by
    unfold contentsJson at written
    by_cases text : c.type = contentText
    · simp only [text, if_true, pure, Except.pure, Except.ok.injEq] at written
      subst written
      simp only [readBackContents, text, if_true]
      rfl
    · simp only [text, if_false] at written
      obtain ⟨vs, vsWritten, rfl⟩ := except_map_eq_ok.mp written
      simp only [readBackContents, text, if_false]
      exact unmarshalContent_list lib vsWritten (List.cons_ne_nil _ _)
  | _ :: _ :: _, _, written => by
    obtain ⟨vs, vsWritten, rfl⟩ := except_map_eq_ok.mp written
    exact unmarshalContent_list lib vsWritten (List.cons_ne_nil _ _)

theorem unmarshalJSON_marshalJSON {m : Message} {v : Json} (written : Message.marshalJSON lib m = .ok v) :
    Message.unmarshalJSON lib v = .ok (m.readBack lib) := by
  obtain ⟨cv, contentWritten, done⟩ := except_bind_eq_ok.mp written
  cases done
  rw [Message.unmarshalJSON, decodeStruct_object]
  simp +decide (disch := with_unfolding_all rfl) only [List.foldl_append, foldl_omitEmpty, List.foldl_cons,
    List.foldl_nil, decodeMember, matchField, rawFields, Field.of, List.find?_cons, List.find?_nil, decide_False,
    decide_True, Option.or_some, zeroRawFields, decodeString_stringJson, Option.none_or,
    unmarshalContent_json lib contentWritten]
  rfl

theorem decodeConversation_json {conv : Conversation} {v : Json} (written : conversationJson lib conv = .ok v) :
    decodeConversation lib v = .ok ⟨conv.messages.map (Message.readBack lib)⟩ := by
  obtain ⟨messages⟩ := conv
  obtain ⟨msgs, msgsWritten, done⟩ := except_bind_eq_ok.mp written
  cases done
  have items := forall₂_of_mapM msgsWritten
  have decoded := mapM_of_forall₂ (fun m v (written : Message.marshalJSON lib m = .ok v) =>
    unmarshalJSON_marshalJSON lib written) items
  cases items with
  | nil => rfl
  | cons =>
    simp +decide only [decodeConversation, List.foldl_cons, List.foldl_nil, decodeConversationMember, decodeMessages,
      sliceJson, decoded]
    rfl

theorem marshalJSON_roundTrip :
    (∀ {m : Message} {v : Json}, Message.marshalJSON lib m = .ok v → Message.unmarshalJSON lib v = .ok (m.readBack lib)) ∧
    (∀ {conv : Conversation} {v : Json}, conversationJson lib conv = .ok v →
      decodeConversation lib v = .ok ⟨conv.messages.map (Message.readBack lib)⟩) :=
  ⟨unmarshalJSON_marshalJSON lib, decodeConversation_json lib⟩

end Structs

end Harmony
