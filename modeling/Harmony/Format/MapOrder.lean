import Harmony.Format.RenderLaws
import Harmony.Format.SchemaText

set_option autoImplicit false

namespace Harmony

namespace GoMap

variable {κ ν : Type} [DecidableEq κ]

def Same (m m' : GoMap κ ν) : Prop := ∀ k, m.get? k = m'.get? k

theorem Same.perm {m m' : GoMap κ ν} (same : m.Same m') : m.entries.Perm m'.entries := entries_perm same

theorem Same.of_perm {m m' : GoMap κ ν} (perm : m.entries.Perm m'.entries) : m.Same m' := fun k => by
  cases found : m.get? k with
  | some v => exact (m'.get?_of_mem (perm.subset (m.mem_of_get? found))).symm
  | none =>
    cases found' : m'.get? k with
    | none => rfl
    | some v => exact absurd (m.get?_of_mem (perm.symm.subset (m'.mem_of_get? found'))) (by rw [found]; simp)

theorem Same.entries_eq_nil {m m' : GoMap κ ν} (same : m.Same m') : m.entries = [] ↔ m'.entries = [] :=
  ⟨fun empty => (empty ▸ same.perm).symm.eq_nil, fun empty => (empty ▸ same.perm.symm).symm.eq_nil⟩

end GoMap

structure SystemContent.Same (a b : SystemContent) : Prop where
  modelIdentity : a.modelIdentity = b.modelIdentity
  reasoningEffort : a.reasoningEffort = b.reasoningEffort
  tools : a.tools.Same b.tools
  conversationStartDate : a.conversationStartDate = b.conversationStartDate
  knowledgeCutoff : a.knowledgeCutoff = b.knowledgeCutoff
  channelConfig : a.channelConfig = b.channelConfig

structure DeveloperContent.Same (a b : DeveloperContent) : Prop where
  instructions : a.instructions = b.instructions
  tools : a.tools.Same b.tools

structure Content.Same (c c' : Content) : Prop where
  type : c.type = c'.type
  text : c.text = c'.text
  system : Option.Rel SystemContent.Same c.system c'.system
  developer : Option.Rel DeveloperContent.Same c.developer c'.developer

structure Message.Same (m m' : Message) : Prop where
  author : m.author = m'.author
  recipient : m.recipient = m'.recipient
  content : List.Forall₂ Content.Same m.content m'.content
  channel : m.channel = m'.channel
  contentType : m.contentType = m'.contentType

section Lists

variable {α β γ : Type} {R : α → β → Prop}

theorem map_eq_of_forall₂ {f : α → γ} {g : β → γ} (agree : ∀ a b, R a b → f a = g b) :
    ∀ {l : List α} {l' : List β}, List.Forall₂ R l l' → l.map f = l'.map g
  | _, _, .nil => rfl
  | _, _, .cons head tail => by rw [List.map_cons, List.map_cons, agree _ _ head, map_eq_of_forall₂ agree tail]

theorem any_eq_of_forall₂ {p : α → Bool} {q : β → Bool} (agree : ∀ a b, R a b → p a = q b) :
    ∀ {l : List α} {l' : List β}, List.Forall₂ R l l' → l.any p = l'.any q
  | _, _, .nil => rfl
  | _, _, .cons head tail => by rw [List.any_cons, List.any_cons, agree _ _ head, any_eq_of_forall₂ agree tail]

theorem foldl_enumFrom_forall₂ {δ : Type} {f : δ → Nat × α → δ} {g : δ → Nat × β → δ}
    (agree : ∀ acc i a b, R a b → f acc (i, a) = g acc (i, b)) :
    ∀ {l : List α} {l' : List β}, List.Forall₂ R l l' → ∀ (n : Nat) (acc : δ),
      (l.enumFrom n).foldl f acc = (l'.enumFrom n).foldl g acc
  | _, _, .nil, _, _ => rfl
  | _, _, .cons head tail, n, acc => by
    rw [List.enumFrom_cons, List.enumFrom_cons, List.foldl_cons, List.foldl_cons, agree _ _ _ _ head]
    exact foldl_enumFrom_forall₂ agree tail _ _

theorem filter_enumFrom_forall₂ {p : Nat × α → Bool} {q : Nat × β → Bool} (agree : ∀ i a b, R a b → p (i, a) = q (i, b)) :
    ∀ {l : List α} {l' : List β}, List.Forall₂ R l l' → ∀ n : Nat,
      List.Forall₂ R (((l.enumFrom n).filter p).map Prod.snd) (((l'.enumFrom n).filter q).map Prod.snd)
  | _, _, .nil, _ => .nil
  | _, _, .cons head tail, n => by
    rw [List.enumFrom_cons, List.enumFrom_cons, List.filter_cons, List.filter_cons, agree _ _ _ head]
    split
    · exact .cons head (filter_enumFrom_forall₂ agree tail _)
    · exact filter_enumFrom_forall₂ agree tail _

theorem head?_rel_of_forall₂ : ∀ {l : List α} {l' : List β}, List.Forall₂ R l l' → Option.Rel R l.head? l'.head?
  | _, _, .nil => .none
  | _, _, .cons head _ => .some head

theorem getLast?_rel_of_forall₂ {l : List α} {l' : List β} (same : List.Forall₂ R l l') :
    Option.Rel R l.getLast? l'.getLast? := by
  rw [← List.head?_reverse, ← List.head?_reverse]
  exact head?_rel_of_forall₂ (List.forall₂_reverse_iff.mpr same)

end Lists

section Text

variable (env : RenderEnv)

theorem writeToolsSection_same {tools tools' : GoMap ByteString ToolNamespaceConfig} (same : tools.Same tools') :
    writeToolsSection env tools = writeToolsSection env tools' := by
  have lookups : ∀ k, tools.get? k = tools'.get? k := same
  unfold writeToolsSection GoMap.keys
  simp only [same.entries_eq_nil, lookups, sortStrings_perm (same.perm.map Prod.fst)]

theorem systemContentText_same (opts : RenderOptions) {a b : SystemContent} (same : a.Same b) :
    systemContentText env a opts = systemContentText env b opts := by
  simp only [systemContentText, same.modelIdentity, same.reasoningEffort, same.conversationStartDate,
    same.knowledgeCutoff, same.channelConfig, ne_eq, same.tools.entries_eq_nil, writeToolsSection_same env same.tools]

theorem developerContentText_same {a b : DeveloperContent} (same : a.Same b) :
    developerContentText env a = developerContentText env b := by
  simp only [developerContentText, same.instructions, ne_eq, same.tools.entries_eq_nil,
    writeToolsSection_same env same.tools]

end Text

section Prepass

theorem estimateToolsMapSize_same {tools tools' : GoMap ByteString ToolNamespaceConfig} (same : tools.Same tools') :
    estimateToolsMapSize tools = estimateToolsMapSize tools' :=
  (same.perm.map _).sum_eq

theorem estimateContentSize_same {c c' : Content} (same : c.Same c') : estimateContentSize c = estimateContentSize c' := by
  obtain ⟨type, text, system, developer⟩ := same
  cases c
  cases c'
  simp only at type text system developer
  unfold estimateContentSize
  rw [type, text]
  congr 2
  · cases system with
    | none => rfl
    | some same =>
      simp only [Option.map_some', Option.getD_some, estimateSystemContentSize, same.modelIdentity,
        same.reasoningEffort, same.conversationStartDate, same.knowledgeCutoff, same.channelConfig,
        estimateToolsMapSize_same same.tools]
  · cases developer with
    | none => rfl
    | some same =>
      simp only [Option.map_some', Option.getD_some, estimateDeveloperContentSize, same.instructions,
        estimateToolsMapSize_same same.tools]

theorem estimateMessageSize_same {m m' : Message} (same : m.Same m') : estimateMessageSize m = estimateMessageSize m' := by
  cases m
  cases m'
  obtain ⟨rfl, rfl, content, rfl, rfl⟩ := same
  simp only at content
  simp only [estimateMessageSize, needsRecipient, map_eq_of_forall₂ (fun _ _ same => estimateContentSize_same same) content]

theorem reachesParallelBytes_same {ms ms' : List Message} (same : List.Forall₂ Message.Same ms ms') (total : Nat) :
    reachesParallelBytes total ms = reachesParallelBytes total ms' := by
  induction same generalizing total with
  | nil => rfl
  | cons head _ ih => simp only [reachesParallelBytes, estimateMessageSize_same head, ih]

theorem declaresFunctionTools_same {c c' : Content} (same : c.Same c') :
    declaresFunctionTools c = declaresFunctionTools c' := by
  obtain ⟨type, -, -, developer⟩ := same
  cases c
  cases c'
  simp only at type developer
  unfold declaresFunctionTools
  rw [type]
  cases developer with
  | none => rfl
  | some same => simp only [same.tools (ascii "functions")]

theorem prepass_same {ms ms' : List Message} (same : List.Forall₂ Message.Same ms ms') : prepass ms = prepass ms' :=
  foldl_enumFrom_forall₂ (fun acc i m m' same => by
    simp only [prepassStep, same.channel, same.author,
      any_eq_of_forall₂ (fun _ _ same => declaresFunctionTools_same same) same.content]) same 0 _

theorem keptMessages_same (autoDrop : Bool) {ms ms' : List Message} (same : List.Forall₂ Message.Same ms ms') :
    List.Forall₂ Message.Same (keptMessages autoDrop ms) (keptMessages autoDrop ms') := by
  unfold keptMessages
  rw [prepass_same same]
  exact filter_enumFrom_forall₂ (fun i m m' same => by simp only [dropped, same.channel]) same 0

end Prepass

namespace Encoding

variable (e : Encoding) (env : RenderEnv) (opts : RenderOptions)

theorem renderContents_cons_same {c c' : Content} (same : c.Same c') {cs cs' : List Content}
    (rest : ∀ out, e.renderContents env opts cs out = e.renderContents env opts cs' out) (out : List Rank) :
    e.renderContents env opts (c :: cs) out = e.renderContents env opts (c' :: cs') out := by
  obtain ⟨type, text, system, developer⟩ := same
  cases c
  cases c'
  simp only at type text system developer
  subst type text
  cases system with
  | none =>
    cases developer with
    | none => simp only [renderContents, rest]
    | some dev => simp only [renderContents, renderDeveloperContent, developerContentText_same env dev, rest]
  | some sys =>
    cases developer with
    | none => simp only [renderContents, renderSystemContent, systemContentText_same env opts sys, rest]
    | some dev =>
      simp only [renderContents, renderSystemContent, renderDeveloperContent, systemContentText_same env opts sys,
        developerContentText_same env dev, rest]

theorem renderContents_same {cs cs' : List Content} (same : List.Forall₂ Content.Same cs cs') (out : List Rank) :
    e.renderContents env opts cs out = e.renderContents env opts cs' out := by
  induction same generalizing out with
  | nil => rfl
  | cons head _ ih => exact renderContents_cons_same e env opts head ih out

theorem renderMessage_same {m m' : Message} (same : m.Same m') :
    e.renderMessage env opts m = e.renderMessage env opts m' := by
  cases m
  cases m'
  obtain ⟨rfl, rfl, content, rfl, rfl⟩ := same
  simp only [renderMessage, toolWithoutName, renderHeaderPieces, needsRecipient, renderContents_same e env opts content]

theorem renderMessageInto_same {m m' : Message} (same : m.Same m') (out : List Rank) :
    e.renderMessageInto env opts m out = e.renderMessageInto env opts m' out := by
  cases m
  cases m'
  obtain ⟨rfl, rfl, content, rfl, rfl⟩ := same
  simp only [renderMessageInto, toolWithoutName, renderHeaderJoined, renderChannelAndType, needsRecipient, terminator,
    renderContents_same e env opts content]

theorem renderAllInto_same {ms ms' : List Message} (same : List.Forall₂ Message.Same ms ms') (out : List Rank) :
    e.renderAllInto env opts ms out = e.renderAllInto env opts ms' out := by
  induction same generalizing out with
  | nil => rfl
  | cons head _ ih => simp only [renderAllInto, renderMessageInto_same e env opts head, ih]

theorem renderAllParallel_same {ms ms' : List Message} (same : List.Forall₂ Message.Same ms ms') :
    e.renderAllParallel env opts ms = e.renderAllParallel env opts ms' := by
  unfold renderAllParallel
  congr 1
  induction same with
  | nil => rfl
  | cons head _ ih => simp only [List.mapM_cons, renderMessage_same e env opts head, ih]

theorem renderConversation_same {conv conv' : Conversation} (same : List.Forall₂ Message.Same conv.messages conv'.messages)
    (cfg : Option RenderConversationConfig) : e.renderConversation env conv cfg = e.renderConversation env conv' cfg := by
  have kept := keptMessages_same (autoDropAnalysis cfg) same
  simp only [renderConversation, kept.length_eq, prepass_same same, shouldParallelRender, reachesParallelBytes_same kept,
    renderAllParallel_same e env _ kept, renderAllInto_same e env _ kept]

theorem render_map_order_free :
    (∀ {m m' : Message}, m.Same m' → e.render env m = e.render env m') ∧
    (∀ {conv conv' : Conversation}, List.Forall₂ Message.Same conv.messages conv'.messages →
      ∀ (cfg : Option RenderConversationConfig) (next : Role),
        e.renderConversation env conv cfg = e.renderConversation env conv' cfg ∧
        e.renderConversationForCompletion env conv next cfg = e.renderConversationForCompletion env conv' next cfg ∧
        e.renderConversationForTraining env conv cfg = e.renderConversationForTraining env conv' cfg) := by
  refine ⟨renderMessage_same e env _, fun {conv conv'} same cfg _ => ⟨renderConversation_same e env same cfg, ?_, ?_⟩⟩
  · simp only [renderConversationForCompletion, renderConversation_same e env same cfg]
  · unfold renderConversationForTraining
    rw [renderConversation_same e env same cfg]
    have last := getLast?_rel_of_forall₂ same
    generalize conv.messages.getLast? = a at last ⊢
    generalize conv'.messages.getLast? = b at last ⊢
    cases last with
    | none => rfl
    | some same => simp only [same.author, same.channel]

end Encoding

def twoNamespaces : GoMap ByteString ToolNamespaceConfig :=
  ⟨[(ascii "browser", ⟨ascii "browser", none, []⟩), (ascii "functions", ⟨ascii "functions", some (ascii "Tools."), []⟩)],
    by decide⟩

def twoNamespacesReversed : GoMap ByteString ToolNamespaceConfig := ⟨twoNamespaces.entries.reverse, by decide⟩

def developerWith (tools : GoMap ByteString ToolNamespaceConfig) : Message :=
  ⟨⟨roleDeveloper, []⟩, [], [⟨contentDeveloper, [], none, some ⟨none, tools⟩⟩], [], []⟩

theorem render_map_order_free_twoNamespaces :
    twoNamespaces.entries ≠ twoNamespacesReversed.entries ∧
      (developerWith twoNamespaces).Same (developerWith twoNamespacesReversed) ∧
      toyEncoding.render toyEnv (developerWith twoNamespaces) =
        toyEncoding.render toyEnv (developerWith twoNamespacesReversed) ∧
      toyEncoding.renderConversation toyEnv ⟨[developerWith twoNamespaces]⟩ none =
        toyEncoding.renderConversation toyEnv ⟨[developerWith twoNamespacesReversed]⟩ none :=
  have same : (developerWith twoNamespaces).Same (developerWith twoNamespacesReversed) :=
    ⟨rfl, rfl, .cons ⟨rfl, rfl, .none, .some ⟨rfl, GoMap.Same.of_perm (List.reverse_perm _).symm⟩⟩ .nil, rfl, rfl⟩
  ⟨by decide, same, (toyEncoding.render_map_order_free toyEnv).1 same,
    ((toyEncoding.render_map_order_free toyEnv).2 (.cons same .nil) none roleAssistant).1⟩

end Harmony
