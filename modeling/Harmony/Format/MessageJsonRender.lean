import Harmony.Format.MessageJsonLaws
import Harmony.Format.ToolsSection

set_option autoImplicit false

namespace Harmony

open ToolSchema Utf8

section Valid

def ToolDescription.utf8Valid (t : ToolDescription) : Bool := validString t.name && validString t.description

def ToolNamespaceConfig.utf8Valid (ns : ToolNamespaceConfig) : Bool :=
  validString ns.name && ns.description.all validString && ns.tools.all ToolDescription.utf8Valid

def toolsUtf8Valid (tools : GoMap ByteString ToolNamespaceConfig) : Bool :=
  tools.entries.all fun e => validString e.1 && e.2.utf8Valid

def SystemContent.utf8Valid (s : SystemContent) : Bool :=
  s.modelIdentity.all validString && s.reasoningEffort.all validString && toolsUtf8Valid s.tools &&
    s.conversationStartDate.all validString && s.knowledgeCutoff.all validString &&
    s.channelConfig.all fun c => c.validChannels.all validString

def DeveloperContent.utf8Valid (d : DeveloperContent) : Bool := d.instructions.all validString && toolsUtf8Valid d.tools

def Content.utf8Valid (c : Content) : Bool :=
  validString c.type && validString c.text && c.system.all SystemContent.utf8Valid &&
    c.developer.all DeveloperContent.utf8Valid

def Message.utf8Valid (m : Message) : Bool :=
  validString m.author.role && validString m.author.name && validString m.recipient &&
    m.content.all Content.utf8Valid && validString m.channel && validString m.contentType

theorem coerceFrom_of_validFrom : ∀ (fuel : Nat) (s : ByteString), validFrom fuel s = true → coerceFrom fuel s = s
  | 0, _, _ => by simp [coerceFrom]
  | _ + 1, [], _ => rfl
  | fuel + 1, b :: rest, valid => by
    simp only [validFrom] at valid
    split_ifs at valid with bad
    simp only [coerceFrom, if_neg bad, coerceFrom_of_validFrom fuel _ valid, List.take_append_drop]

theorem coerce_of_valid {s : ByteString} (valid : validString s = true) : coerce s = s :=
  coerceFrom_of_validFrom _ _ valid

theorem map_coerce_of_all {o : Option ByteString} (valid : o.all validString = true) : o.map coerce = o := by
  cases o with
  | none => rfl
  | some s => exact congrArg some (coerce_of_valid valid)

theorem map_coerce_of_all_list {l : List ByteString} (valid : l.all validString = true) : l.map coerce = l :=
  (List.map_congr_left fun s mem => coerce_of_valid (List.all_eq_true.mp valid s mem)).trans (List.map_id l)

end Valid

namespace GoMap

variable {κ ν μ : Type} [DecidableEq κ]

def mapValues (f : ν → μ) (m : GoMap κ ν) : GoMap κ μ :=
  ⟨m.entries.map fun e => (e.1, f e.2), by simpa [List.map_map] using m.keys_nodup⟩

theorem get?_mapValues (f : ν → μ) (m : GoMap κ ν) (k : κ) : (m.mapValues f).get? k = (m.get? k).map f := by
  simp only [get?, mapValues, List.find?_map, Option.map_map]
  rfl

omit [DecidableEq κ] in
theorem keys_mapValues (f : ν → μ) (m : GoMap κ ν) : (m.mapValues f).keys = m.keys := by
  simp [keys, mapValues]

end GoMap

theorem entries_foldl_insert {ν μ : Type} (f : ν → μ) :
    ∀ {es : List (ByteString × ν)}, (es.map Prod.fst).Nodup → (∀ e ∈ es, coerce e.1 = e.1) →
      ∀ acc : GoMap ByteString μ, (∀ e ∈ es, e.1 ∉ acc.keys) →
        (es.foldl (fun m e => m.insert (coerce e.1) (f e.2)) acc).entries = acc.entries ++ es.map fun e => (e.1, f e.2)
  | [], _, _, acc, _ => by simp
  | e :: es, distinct, valid, acc, fresh => by
    rw [List.map_cons, List.nodup_cons] at distinct
    have step : (acc.insert (coerce e.1) (f e.2)).entries = acc.entries ++ [(e.1, f e.2)] := by
      have absent := fresh e (List.mem_cons_self _ _)
      simp only [GoMap.insert, valid e (List.mem_cons_self _ _)]
      congr 1
      refine List.filter_eq_self.mpr fun x mem => ?_
      simp only [ne_eq, decide_eq_true_eq]
      exact fun same => absent (same ▸ List.mem_map_of_mem Prod.fst mem)
    rw [List.foldl_cons, entries_foldl_insert f distinct.2 (fun x mem => valid x (List.mem_cons_of_mem _ mem)), step,
      List.append_assoc, List.map_cons, List.singleton_append]
    intro x mem
    simp only [GoMap.keys, step, List.map_append, List.mem_append, List.map_cons, List.map_nil, List.mem_singleton,
      not_or]
    exact ⟨fun inAcc => fresh x (List.mem_cons_of_mem _ mem) inAcc,
      fun same => distinct.1 (same ▸ List.mem_map_of_mem Prod.fst mem)⟩

theorem readBackTools_same (lib : JsonLib) {tools : GoMap ByteString ToolNamespaceConfig}
    (valid : ∀ e ∈ tools.entries, validString e.1 = true) :
    (readBackTools lib tools).Same (tools.mapValues (readBackToolNamespace lib)) := by
  have sorted : (sortByKey tools.entries).Perm tools.entries := List.mergeSort_perm _ _
  apply GoMap.Same.of_perm
  rw [readBackTools, entries_foldl_insert _ ((sorted.map Prod.fst).nodup_iff.mpr tools.keys_nodup)
    (fun e mem => coerce_of_valid (valid e (sorted.subset mem))) GoMap.empty (fun _ _ => List.not_mem_nil _)]
  exact (sorted.map _)

theorem getD_of_map_eq {α β : Type} {g : α → β} {a b : Option α} (same : a.map g = b.map g) (d : α) :
    g (a.getD d) = g (b.getD d) := by
  cases a <;> cases b <;> simp_all

section Text

variable (env : RenderEnv) (lib : JsonLib)

theorem readBackTools_entries_eq_nil {tools : GoMap ByteString ToolNamespaceConfig} (valid : toolsUtf8Valid tools = true) :
    (readBackTools lib tools).entries = [] ↔ tools.entries = [] := by
  simp only [toolsUtf8Valid, List.all_eq_true, Bool.and_eq_true] at valid
  rw [(readBackTools_same lib fun e mem => (valid e mem).1).entries_eq_nil]
  simp [GoMap.mapValues]

-- The text a `RawMessage` reads back as is not empty and names the schema the text written named.
def RawSchemaKept : Prop :=
  ∀ p v, lib.rawTree p = .ok v → lib.rawText v ≠ [] ∧ env.schemaText (lib.rawText v) = env.schemaText p

-- The text layer reads the text it keeps of a `RawMessage` back as the value it came from, and keeps some text.
def RawStable : Prop := ∀ p v, lib.rawTree p = .ok v → lib.rawTree (lib.rawText v) = .ok v ∧ lib.rawText v ≠ []

theorem rawSchemaKept_renderEnvOf {lib : JsonLib} (stable : RawStable lib) (F : FloatFormat) (draw : PropertiesDraw)
    (parallel : Bool) (toLower : ByteString → ByteString) : RawSchemaKept (renderEnvOf lib F draw parallel toLower) lib :=
  fun p v raw =>
    have again := stable p v raw
    ⟨again.2, by simp only [renderEnvOf, parametersSchemaText, again.1, raw]⟩

theorem weatherLib_rawStable : RawStable weatherLib := by
  intro p v raw
  simp only [weatherLib] at raw
  split_ifs at raw with weather empty <;> cases raw
  · exact ⟨show weatherLib.rawTree weatherText = _ by simp [weatherLib], by decide⟩
  · exact ⟨by simp only [weatherLib, if_neg weather, if_neg empty], empty⟩

variable {env lib} (kept : RawSchemaKept env lib)
include kept

theorem toolText_readBack {t : ToolDescription} (valid : t.utf8Valid = true) :
    toolText env (readBackToolDescription lib t) = toolText env t := by
  simp only [ToolDescription.utf8Valid, Bool.and_eq_true] at valid
  unfold toolText readBackToolDescription
  simp only [coerce_of_valid valid.1, coerce_of_valid valid.2]
  by_cases empty : t.parameters = []
  · simp [empty]
  · cases raw : lib.rawTree t.parameters with
    | error => simp [empty, raw]
    | ok v =>
      obtain ⟨nonempty, same⟩ := kept _ _ raw
      simp [empty, raw, nonempty, same]

theorem namespaceText_readBack {ns : ToolNamespaceConfig} (valid : ns.utf8Valid = true) :
    namespaceText env (readBackToolNamespace lib ns) = namespaceText env ns := by
  simp only [ToolNamespaceConfig.utf8Valid, Bool.and_eq_true, List.all_eq_true] at valid
  obtain ⟨⟨name, described⟩, tools⟩ := valid
  have texts : (ns.tools.map (readBackToolDescription lib)).map (toolText env) = ns.tools.map (toolText env) := by
    rw [List.map_map]
    exact List.map_congr_left fun t mem => toolText_readBack kept (tools t mem)
  simp only [namespaceText, readBackToolNamespace, coerce_of_valid name, map_coerce_of_all described, ne_eq,
    List.map_eq_nil_iff, texts]

theorem writeToolsSection_readBack {tools : GoMap ByteString ToolNamespaceConfig} (valid : toolsUtf8Valid tools = true) :
    writeToolsSection env (readBackTools lib tools) = writeToolsSection env tools := by
  simp only [toolsUtf8Valid, List.all_eq_true, Bool.and_eq_true] at valid
  rw [writeToolsSection_same env (readBackTools_same lib fun e mem => (valid e mem).1)]
  have texts : ∀ k, ((tools.mapValues (readBackToolNamespace lib)).get? k).map (namespaceText env) =
      (tools.get? k).map (namespaceText env) := fun k => by
    rw [GoMap.get?_mapValues, Option.map_map]
    cases found : tools.get? k with
    | none => rfl
    | some ns => exact congrArg some (namespaceText_readBack kept (valid _ (tools.mem_of_get? found)).2)
  have empty : (tools.mapValues (readBackToolNamespace lib)).entries = [] ↔ tools.entries = [] := by
    simp [GoMap.mapValues]
  unfold writeToolsSection
  have getDs : ∀ k, namespaceText env (((tools.mapValues (readBackToolNamespace lib)).get? k).getD ⟨[], none, []⟩) =
      namespaceText env ((tools.get? k).getD ⟨[], none, []⟩) := fun k => getD_of_map_eq (texts k) _
  simp only [empty, GoMap.keys_mapValues, getDs]

theorem systemContentText_readBack {s : SystemContent} (valid : s.utf8Valid = true) (opts : RenderOptions) :
    systemContentText env (readBackSystemContent lib s) opts = systemContentText env s opts := by
  simp only [SystemContent.utf8Valid, Bool.and_eq_true] at valid
  obtain ⟨⟨⟨⟨⟨identity, effort⟩, tools⟩, date⟩, cutoff⟩, config⟩ := valid
  have channels : s.channelConfig.map readBackChannelConfig = s.channelConfig := by
    cases found : s.channelConfig with
    | none => rfl
    | some c =>
      rw [found] at config
      exact congrArg some (congrArg (ChannelConfig.mk · c.channelRequired) (map_coerce_of_all_list config))
  simp only [systemContentText, readBackSystemContent, map_coerce_of_all identity, map_coerce_of_all effort,
    map_coerce_of_all date, map_coerce_of_all cutoff, ne_eq, readBackTools_entries_eq_nil lib tools,
    writeToolsSection_readBack kept tools, channels]

theorem developerContentText_readBack {d : DeveloperContent} (valid : d.utf8Valid = true) :
    developerContentText env (readBackDeveloperContent lib d) = developerContentText env d := by
  simp only [DeveloperContent.utf8Valid, Bool.and_eq_true] at valid
  simp only [developerContentText, readBackDeveloperContent, map_coerce_of_all valid.1, ne_eq,
    readBackTools_entries_eq_nil lib valid.2, writeToolsSection_readBack kept valid.2]

end Text

namespace Encoding

variable (e : Encoding) {env : RenderEnv} {lib : JsonLib} (kept : RawSchemaKept env lib) (opts : RenderOptions)
include kept

theorem renderContents_map_readBack : ∀ {cs : List Content}, cs.all Content.utf8Valid = true → ∀ out : List Rank,
    e.renderContents env opts (cs.map (readBackContent lib)) out = e.renderContents env opts cs out
  | [], _, _ => rfl
  | ⟨type, text, system, developer⟩ :: cs, valid, out => by
    simp only [List.all_cons, Content.utf8Valid, Bool.and_eq_true] at valid
    obtain ⟨⟨⟨⟨typed, texted⟩, systemValid⟩, developerValid⟩, rest⟩ := valid
    have next := renderContents_map_readBack rest
    cases system with
    | none =>
      cases developer with
      | none => simp only [List.map_cons, readBackContent, renderContents, coerce_of_valid typed,
          coerce_of_valid texted, Option.map_none', next]
      | some dev => simp only [List.map_cons, readBackContent, renderContents, coerce_of_valid typed,
          coerce_of_valid texted, Option.map_none', Option.map_some', renderDeveloperContent,
          developerContentText_readBack kept developerValid, next]
    | some sys =>
      cases developer with
      | none => simp only [List.map_cons, readBackContent, renderContents, coerce_of_valid typed,
          coerce_of_valid texted, Option.map_none', Option.map_some', renderSystemContent,
          systemContentText_readBack kept systemValid, next]
      | some dev => simp only [List.map_cons, readBackContent, renderContents, coerce_of_valid typed,
          coerce_of_valid texted, Option.map_some', renderSystemContent, renderDeveloperContent,
          systemContentText_readBack kept systemValid, developerContentText_readBack kept developerValid, next]

theorem renderContents_readBackContents : ∀ {cs : List Content}, cs.all Content.utf8Valid = true → ∀ out : List Rank,
    e.renderContents env opts (readBackContents lib cs) out = e.renderContents env opts cs out
  | [], _, _ => rfl
  | [c], valid, out => by
    by_cases text : c.type = contentText
    · simp only [List.all_cons, List.all_nil, Bool.and_true, Content.utf8Valid, Bool.and_eq_true] at valid
      simp only [readBackContents, text, if_true, renderContents, textContent, coerce_of_valid valid.1.1.2]
    · simp only [readBackContents, text, if_false]
      exact renderContents_map_readBack e kept opts valid out
  | _ :: _ :: _, valid, out => renderContents_map_readBack e kept opts valid out

theorem renderMessage_readBack {m : Message} (valid : m.utf8Valid = true) :
    e.renderMessage env opts (m.readBack lib) = e.renderMessage env opts m := by
  obtain ⟨⟨role, name⟩, recipient, content, channel, contentType⟩ := m
  simp only [Message.utf8Valid, Bool.and_eq_true] at valid
  obtain ⟨⟨⟨⟨⟨roleValid, nameValid⟩, recipientValid⟩, contentValid⟩, channelValid⟩, typeValid⟩ := valid
  simp only [Message.readBack, coerce_of_valid roleValid, coerce_of_valid nameValid, coerce_of_valid recipientValid,
    coerce_of_valid channelValid, coerce_of_valid typeValid, renderMessage, toolWithoutName, renderHeaderPieces,
    needsRecipient, renderContents_readBackContents e kept opts contentValid]

theorem renderMessageInto_readBack {m : Message} (valid : m.utf8Valid = true) (out : List Rank) :
    e.renderMessageInto env opts (m.readBack lib) out = e.renderMessageInto env opts m out := by
  obtain ⟨⟨role, name⟩, recipient, content, channel, contentType⟩ := m
  simp only [Message.utf8Valid, Bool.and_eq_true] at valid
  obtain ⟨⟨⟨⟨⟨roleValid, nameValid⟩, recipientValid⟩, contentValid⟩, channelValid⟩, typeValid⟩ := valid
  simp only [Message.readBack, coerce_of_valid roleValid, coerce_of_valid nameValid, coerce_of_valid recipientValid,
    coerce_of_valid channelValid, coerce_of_valid typeValid, renderMessageInto, toolWithoutName, renderHeaderJoined,
    renderChannelAndType, needsRecipient, terminator, renderContents_readBackContents e kept opts contentValid]

end Encoding

section Conversations

variable (lib : JsonLib)

def ReadsBack (m' m : Message) : Prop := m.utf8Valid = true ∧ m' = m.readBack lib

theorem forall₂_readsBack {msgs : List Message} (valid : msgs.all Message.utf8Valid = true) :
    List.Forall₂ (ReadsBack lib) (msgs.map (Message.readBack lib)) msgs :=
  List.forall₂_map_left_iff.mpr (List.forall₂_same.mpr fun m mem => ⟨List.all_eq_true.mp valid m mem, rfl⟩)

theorem any_map_of_agree {α : Type} {p : α → Bool} {f : α → α} :
    ∀ {l : List α}, (∀ x ∈ l, p (f x) = p x) → (l.map f).any p = l.any p
  | [], _ => rfl
  | x :: xs, agree => by
    rw [List.map_cons, List.any_cons, List.any_cons, agree x (List.mem_cons_self _ _),
      any_map_of_agree fun y mem => agree y (List.mem_cons_of_mem _ mem)]

theorem declaresFunctionTools_readBackContent {c : Content} (valid : c.utf8Valid = true) :
    declaresFunctionTools (readBackContent lib c) = declaresFunctionTools c := by
  obtain ⟨type, text, system, developer⟩ := c
  simp only [Content.utf8Valid, Bool.and_eq_true] at valid
  obtain ⟨⟨⟨typed, -⟩, -⟩, developerValid⟩ := valid
  cases developer with
  | none => simp only [declaresFunctionTools, readBackContent, coerce_of_valid typed, Option.map_none']
  | some d =>
    simp only [Option.all_some, DeveloperContent.utf8Valid, Bool.and_eq_true, toolsUtf8Valid, List.all_eq_true]
      at developerValid
    have lookup : (readBackTools lib d.tools).get? (ascii "functions") =
        (d.tools.get? (ascii "functions")).map (readBackToolNamespace lib) :=
      (readBackTools_same lib (fun e mem => (developerValid.2 e mem).1) _).trans
        (GoMap.get?_mapValues _ _ _)
    simp only [declaresFunctionTools, readBackContent, readBackDeveloperContent, coerce_of_valid typed,
      Option.map_some', lookup]
    cases d.tools.get? (ascii "functions") with
    | none => rfl
    | some ns => simp [readBackToolNamespace]

theorem declaresFunctionTools_readBackContents :
    ∀ {cs : List Content}, cs.all Content.utf8Valid = true →
      (readBackContents lib cs).any declaresFunctionTools = cs.any declaresFunctionTools
  | [], _ => rfl
  | [c], valid => by
    by_cases text : c.type = contentText
    · have distinct : decide (contentText = contentDeveloper) = false := by decide
      simp only [readBackContents, text, if_true, List.any_cons, List.any_nil, declaresFunctionTools, textContent,
        distinct, Bool.false_and]
    · simp only [readBackContents, text, if_false, List.any_cons, List.any_nil, List.all_cons, List.all_nil,
        Bool.and_true] at valid ⊢
      rw [declaresFunctionTools_readBackContent lib valid]
  | c₁ :: c₂ :: cs, valid =>
    show ((c₁ :: c₂ :: cs).map (readBackContent lib)).any declaresFunctionTools = _ from
      any_map_of_agree fun c mem => declaresFunctionTools_readBackContent lib (List.all_eq_true.mp valid c mem)

theorem prepassStep_readsBack {m' m : Message} (reads : ReadsBack lib m' m) (acc : Prepass) (i : Nat) :
    prepassStep acc i m' = prepassStep acc i m := by
  obtain ⟨valid, rfl⟩ := reads
  simp only [Message.utf8Valid, Bool.and_eq_true] at valid
  obtain ⟨⟨⟨⟨⟨roleValid, -⟩, -⟩, contentValid⟩, channelValid⟩, -⟩ := valid
  simp only [prepassStep, Message.readBack, coerce_of_valid roleValid, coerce_of_valid channelValid,
    declaresFunctionTools_readBackContents lib contentValid]

theorem prepass_readBack {msgs : List Message} (valid : msgs.all Message.utf8Valid = true) :
    prepass (msgs.map (Message.readBack lib)) = prepass msgs :=
  foldl_enumFrom_forall₂ (fun acc i _ _ reads => prepassStep_readsBack lib reads acc i) (forall₂_readsBack lib valid) 0 _

theorem keptMessages_readsBack (autoDrop : Bool) {msgs : List Message} (valid : msgs.all Message.utf8Valid = true) :
    List.Forall₂ (ReadsBack lib) (keptMessages autoDrop (msgs.map (Message.readBack lib))) (keptMessages autoDrop msgs) := by
  unfold keptMessages
  rw [prepass_readBack lib valid]
  refine filter_enumFrom_forall₂ (fun i m' m reads => ?_) (forall₂_readsBack lib valid) 0
  obtain ⟨valid, rfl⟩ := reads
  simp only [Message.utf8Valid, Bool.and_eq_true] at valid
  simp only [dropped, Message.readBack, coerce_of_valid valid.1.2]

end Conversations

namespace Encoding

variable (e : Encoding) {env : RenderEnv} {lib : JsonLib} (kept : RawSchemaKept env lib) (opts : RenderOptions)
include kept

theorem renderAllInto_readsBack {ms' ms : List Message} (reads : List.Forall₂ (ReadsBack lib) ms' ms) (out : List Rank) :
    e.renderAllInto env opts ms' out = e.renderAllInto env opts ms out := by
  induction reads generalizing out with
  | nil => rfl
  | cons head _ ih =>
    obtain ⟨valid, rfl⟩ := head
    simp only [renderAllInto, renderMessageInto_readBack e kept opts valid, ih]

theorem renderConversation_readBack {conv : Conversation} (valid : conv.messages.all Message.utf8Valid = true)
    (sequential : env.parallel = false) (cfg : Option RenderConversationConfig) :
    e.renderConversation env ⟨conv.messages.map (Message.readBack lib)⟩ cfg = e.renderConversation env conv cfg := by
  have reads := keptMessages_readsBack lib (autoDropAnalysis cfg) valid
  simp only [renderConversation, shouldParallelRender, sequential, Bool.false_and, Bool.false_eq_true, if_false,
    reads.length_eq, prepass_readBack lib valid, renderAllInto_readsBack e kept _ reads]

theorem renderConversationForTraining_readBack {conv : Conversation} (valid : conv.messages.all Message.utf8Valid = true)
    (sequential : env.parallel = false) (cfg : Option RenderConversationConfig) :
    e.renderConversationForTraining env ⟨conv.messages.map (Message.readBack lib)⟩ cfg =
      e.renderConversationForTraining env conv cfg := by
  unfold renderConversationForTraining
  simp only [List.getLast?_map, renderConversation_readBack e kept valid sequential]
  cases last : conv.messages.getLast? with
  | none => rfl
  | some m =>
    have lastValid := List.all_eq_true.mp valid m (List.mem_of_getLast?_eq_some last)
    simp only [Message.utf8Valid, Bool.and_eq_true] at lastValid
    simp only [Option.map_some', Message.readBack, coerce_of_valid lastValid.1.1.1.1.1,
      coerce_of_valid lastValid.1.2]

theorem render_json_roundTrip :
    (∀ {m : Message} {v : Json}, m.utf8Valid = true → Message.marshalJSON lib m = .ok v →
      ((Message.unmarshalJSON lib v).mapError DecodeError.text).bind (e.render env) = e.render env m) ∧
    (∀ {conv : Conversation} {v : Json}, conv.messages.all Message.utf8Valid = true → env.parallel = false →
      conversationJson lib conv = .ok v → ∀ (cfg : Option RenderConversationConfig) (next : Role),
        ((decodeConversation lib v).mapError DecodeError.text).bind (e.renderConversation env · cfg) = e.renderConversation env conv cfg ∧
        ((decodeConversation lib v).mapError DecodeError.text).bind (e.renderConversationForCompletion env · next cfg) =
          e.renderConversationForCompletion env conv next cfg ∧
        ((decodeConversation lib v).mapError DecodeError.text).bind (e.renderConversationForTraining env · cfg) =
          e.renderConversationForTraining env conv cfg) := by
  refine ⟨fun valid written => ?_, fun valid sequential written cfg next => ?_⟩
  · rw [unmarshalJSON_marshalJSON lib written]
    exact renderMessage_readBack e kept _ valid
  · rw [decodeConversation_json lib written]
    have rendered := renderConversation_readBack e kept valid sequential cfg
    refine ⟨rendered, ?_, renderConversationForTraining_readBack e kept valid sequential cfg⟩
    simp only [Except.mapError, Except.bind, renderConversationForCompletion, rendered]

end Encoding

def weatherEnv : RenderEnv := renderEnvOf weatherLib literalFloats .stored false id

theorem render_json_roundTrip_weather :
    RawSchemaKept weatherEnv weatherLib ∧
    (∀ {m : Message} {v : Json}, m.utf8Valid = true → Message.marshalJSON weatherLib m = .ok v →
      ((Message.unmarshalJSON weatherLib v).mapError DecodeError.text).bind (toyEncoding.render weatherEnv) =
        toyEncoding.render weatherEnv m) ∧
    (∀ {conv : Conversation} {v : Json}, conv.messages.all Message.utf8Valid = true → weatherEnv.parallel = false →
      conversationJson weatherLib conv = .ok v → ∀ (cfg : Option RenderConversationConfig) (next : Role),
        ((decodeConversation weatherLib v).mapError DecodeError.text).bind (toyEncoding.renderConversation weatherEnv · cfg) =
          toyEncoding.renderConversation weatherEnv conv cfg ∧
        ((decodeConversation weatherLib v).mapError DecodeError.text).bind
          (toyEncoding.renderConversationForCompletion weatherEnv · next cfg) =
          toyEncoding.renderConversationForCompletion weatherEnv conv next cfg ∧
        ((decodeConversation weatherLib v).mapError DecodeError.text).bind
          (toyEncoding.renderConversationForTraining weatherEnv · cfg) =
          toyEncoding.renderConversationForTraining weatherEnv conv cfg) :=
  have kept : RawSchemaKept weatherEnv weatherLib := rawSchemaKept_renderEnvOf weatherLib_rawStable _ _ _ _
  ⟨kept, toyEncoding.render_json_roundTrip kept⟩

end Harmony
