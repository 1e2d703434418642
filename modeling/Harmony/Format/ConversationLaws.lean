import Harmony.Format.RenderLaws

set_option autoImplicit false

namespace Harmony

def firstFinalIndex (msgs : List Message) : Option Nat := msgs.findIdx? fun m => m.channel = channelFinal

def lastAssistantIsFinal (msgs : List Message) : Bool :=
  match (msgs.filter fun m => m.author.role = roleAssistant).getLast? with
  | some m => m.channel = channelFinal
  | none => false

-- Auto-drop's rule: under a final last assistant message, a message in channel "analysis" placed
-- before the first final one is left out.
def droppedByRule (msgs : List Message) (i : Nat) (m : Message) : Bool :=
  lastAssistantIsFinal msgs && m.channel = channelAnalysis && (firstFinalIndex msgs).any (i < ·)

theorem prepass_append (msgs : List Message) (m : Message) :
    prepass (msgs ++ [m]) = prepassStep (prepass msgs) msgs.length m := by
  simp [prepass, List.enum_append, List.enumFrom_singleton]

theorem prepass_firstFinal (msgs : List Message) :
    (prepass msgs).firstFinal = ((firstFinalIndex msgs).map (↑)).getD (-1) := by
  induction msgs using List.reverseRecOn with
  | nil => rfl
  | append_singleton msgs m ih =>
    rw [prepass_append, firstFinalIndex, List.findIdx?_append]
    rw [firstFinalIndex] at ih
    cases found : msgs.findIdx? (fun m => decide (m.channel = channelFinal)) with
    | none =>
      rw [found] at ih
      by_cases final : m.channel = channelFinal <;> simp [prepassStep, ih, final]
    | some j =>
      rw [found] at ih
      have : (j : Int) ≠ -1 := by omega
      simp [prepassStep, ih, this]

theorem prepass_lastAssistantFinal (msgs : List Message) :
    (prepass msgs).lastAssistantFinal = lastAssistantIsFinal msgs := by
  induction msgs using List.reverseRecOn with
  | nil => rfl
  | append_singleton msgs m ih =>
    rw [prepass_append, lastAssistantIsFinal, List.filter_append, List.getLast?_append]
    by_cases assistant : m.author.role = roleAssistant
    · simp [prepassStep, assistant]
    · simp [prepassStep, assistant, ih, lastAssistantIsFinal]

theorem firstFinalIndex_lt {msgs : List Message} {j : Nat} (found : firstFinalIndex msgs = some j) :
    j < msgs.length :=
  (List.findIdx?_eq_some_iff_getElem.mp found).1

theorem dropped_prepass (autoDrop : Bool) (msgs : List Message) (i : Nat) (m : Message) :
    dropped (autoDrop && (prepass msgs).lastAssistantFinal) (prepass msgs).firstFinal i m =
      (autoDrop && droppedByRule msgs i m) := by
  rw [prepass_firstFinal, prepass_lastAssistantFinal, droppedByRule]
  cases firstFinalIndex msgs <;> simp [dropped, Bool.and_comm, Bool.and_left_comm, Bool.and_assoc]

theorem keptMessages_eq (autoDrop : Bool) (msgs : List Message) :
    keptMessages autoDrop msgs =
      (msgs.enum.filter fun im => !(autoDrop && droppedByRule msgs im.1 im.2)).map Prod.snd := by
  simp only [keptMessages, dropped_prepass]

theorem keptMessages_false (msgs : List Message) : keptMessages false msgs = msgs := by
  simp [keptMessages_eq]

theorem keptMessages_getLast? (autoDrop : Bool) (msgs : List Message) :
    (keptMessages autoDrop msgs).getLast? = msgs.getLast? := by
  rcases List.eq_nil_or_concat msgs with rfl | ⟨init, last, rfl⟩
  · rfl
  · have kept : droppedByRule (init ++ [last]) init.length last = false := by
      cases found : firstFinalIndex (init ++ [last]) with
      | none => simp [droppedByRule, found]
      | some j =>
        have below := firstFinalIndex_lt found
        simp only [List.length_append, List.length_singleton] at below
        simp [droppedByRule, found]
        omega
    simp [keptMessages_eq, List.enum_append, List.enumFrom_singleton, kept, List.getLast?_append]

namespace Encoding

variable (e : Encoding) (env : RenderEnv)

theorem renderConversation_getLast? {conv : Conversation} {cfg : Option RenderConversationConfig} {r : List Rank}
    (ok : e.renderConversation env conv cfg = .ok r) : r.getLast? = conv.messages.getLast?.map terminator := by
  rcases renderConversation_ok ok with rendered | rendered <;>
    rw [rendered.getLast?, keptMessages_getLast?]

end Encoding

theorem set_last {r : List Rank} (v : Rank) (nonempty : r ≠ []) :
    (r.set (r.length - 1) v).length = r.length ∧ (∀ i, i + 1 < r.length → (r.set (r.length - 1) v)[i]? = r[i]?) ∧
      (r.set (r.length - 1) v).getLast? = some v := by
  have long := List.length_pos.mpr nonempty
  refine ⟨List.length_set .., fun i before => List.getElem?_set_ne (by omega), ?_⟩
  rw [List.getLast?_eq_getElem?, List.length_set, List.getElem?_set_self]
  omega

theorem terminator_ne_return (m : Message) : terminator m ≠ idReturn := by
  unfold terminator
  split_ifs <;> decide

theorem renderConversationForTraining_law (e : Encoding) (env : RenderEnv) (conv : Conversation)
    (cfg : Option RenderConversationConfig) (r : List Rank) (ok : e.renderConversation env conv cfg = .ok r) :
    ∃ t, e.renderConversationForTraining env conv cfg = .ok t ∧ t.length = r.length ∧
      (∀ i, i + 1 < r.length → t[i]? = r[i]?) ∧
      (t.getLast? ≠ r.getLast? ↔
        ∃ last, conv.messages.getLast? = some last ∧ last.author.role = roleAssistant ∧ last.channel = channelFinal) ∧
      ∀ last, conv.messages.getLast? = some last → last.author.role = roleAssistant → last.channel = channelFinal →
        r.getLast? = some (if needsRecipient last then idCall else idEnd) ∧ t.getLast? = some idReturn := by
  have ends := e.renderConversation_getLast? env ok
  unfold Encoding.renderConversationForTraining
  cases lastMsg : conv.messages.getLast? with
  | none =>
    obtain rfl : r = [] := by simpa [lastMsg] using ends
    simp [ok, bind, Except.bind, pure, Except.pure]
  | some last =>
    rw [lastMsg, Option.map_some'] at ends
    have nonempty : r ≠ [] := fun empty => by simp [empty] at ends
    by_cases finalAsst : last.author.role = roleAssistant ∧ last.channel = channelFinal
    · obtain ⟨sameLength, same, returned⟩ := set_last idReturn nonempty
      have long : r.length ≠ 0 := by simpa using nonempty
      refine ⟨_, by simp [ok, bind, Except.bind, finalAsst, long, pure, Except.pure], sameLength, same, ?_, ?_⟩
      · simp only [returned, ends, ne_eq, Option.some.injEq]
        exact ⟨fun _ => ⟨last, rfl, finalAsst⟩, fun _ same => terminator_ne_return last same.symm⟩
      · rintro _ ⟨⟩ _ _
        simp [ends, returned, terminator, finalAsst.1]
    · refine ⟨r, by simp [ok, bind, Except.bind, finalAsst, pure, Except.pure], rfl, fun _ _ => rfl, ?_, ?_⟩
      · simp only [ne_eq, not_true_eq_false, false_iff, not_exists, not_and, Option.some.injEq]
        rintro _ rfl
        exact fun assistant final => finalAsst ⟨assistant, final⟩
      · rintro _ ⟨⟩ assistant final
        exact absurd ⟨assistant, final⟩ finalAsst

def finalCall : Message := ⟨⟨roleAssistant, []⟩, ascii "x", [textContent (ascii "hi")], channelFinal, []⟩

set_option maxRecDepth 10000 in
theorem finalCall_ends_with_call :
    finalCall.author.role = roleAssistant ∧ finalCall.channel = channelFinal ∧
      ∃ r, toyEncoding.renderConversation toyEnv ⟨[finalCall]⟩ none = .ok r ∧ r.getLast? = some tokCall :=
  ⟨rfl, rfl, _, rfl, rfl⟩

set_option maxRecDepth 10000 in
theorem renderConversationForTraining_law_finalCall :
    ∃ r, toyEncoding.renderConversation toyEnv ⟨[finalCall]⟩ none = .ok r ∧
      ∃ t, toyEncoding.renderConversationForTraining toyEnv ⟨[finalCall]⟩ none = .ok t ∧ t.length = r.length ∧
        (∀ i, i + 1 < r.length → t[i]? = r[i]?) ∧
        (t.getLast? ≠ r.getLast? ↔ ∃ last, [finalCall].getLast? = some last ∧ last.author.role = roleAssistant ∧
          last.channel = channelFinal) ∧
        ∀ last, [finalCall].getLast? = some last → last.author.role = roleAssistant → last.channel = channelFinal →
          r.getLast? = some (if needsRecipient last then idCall else idEnd) ∧ t.getLast? = some idReturn :=
  ⟨_, rfl, renderConversationForTraining_law toyEncoding toyEnv ⟨[finalCall]⟩ none _ rfl⟩

namespace Encoding

variable (e : Encoding) (env : RenderEnv) (opts : RenderOptions)

-- A header that `renderMessage` and `renderMessageInto` encode alike: one string, a bare role or a tool's name,
-- and no recipient.
def OneStringHeader (m : Message) : Prop := (m.author.role = roleTool ∨ m.author.name = []) ∧ ¬ needsRecipient m

instance (m : Message) : Decidable (OneStringHeader m) := inferInstanceAs (Decidable (_ ∧ _))

theorem systemContentText_parallel (b : Bool) (sys : SystemContent) :
    systemContentText { env with parallel := b } sys opts = systemContentText env sys opts := rfl

theorem developerContentText_parallel (b : Bool) (dev : DeveloperContent) :
    developerContentText { env with parallel := b } dev = developerContentText env dev := rfl

theorem renderContents_parallel (b : Bool) (cs : List Content) (out : List Rank) :
    e.renderContents { env with parallel := b } opts cs out = e.renderContents env opts cs out := by
  induction cs generalizing out with
  | nil => rfl
  | cons c cs ih =>
    simp only [renderContents, renderSystemContent, renderDeveloperContent, systemContentText_parallel,
      developerContentText_parallel, ih]

theorem renderAllInto_parallel (b : Bool) (kept : List Message) (out : List Rank) :
    e.renderAllInto { env with parallel := b } opts kept out = e.renderAllInto env opts kept out := by
  induction kept generalizing out with
  | nil => rfl
  | cons m ms ih => simp only [renderAllInto, renderMessageInto, renderContents_parallel, ih]

theorem renderAllInto_eq_parallel {kept : List Message} (single : ∀ m ∈ kept, OneStringHeader m) (out : List Rank) :
    e.renderAllInto env opts kept out = (e.renderAllParallel env opts kept).map (out ++ ·) := by
  induction kept generalizing out with
  | nil =>
    rw [renderAllInto, renderAllParallel, List.mapM_nil]
    exact congrArg Except.ok (List.append_nil out).symm
  | cons m ms ih =>
    obtain ⟨oneString, direct⟩ := single m (List.mem_cons_self _ _)
    have rest := ih (fun x mem => single x (List.mem_cons_of_mem _ mem))
    cases found : messageTexts env opts m with
    | error err =>
      have stopped := e.renderMessageInto_error env opts found out
      rcases into : e.renderMessageInto env opts m out with ⟨_, _ | err'⟩ <;> rw [into] at stopped <;> cases stopped
      simp only [renderAllInto, into, renderAllParallel, List.mapM_cons, e.renderMessage_error env opts found]
      rfl
    | ok texts =>
      have ok := e.renderMessage_ok env opts found
      rw [renderAllInto, e.renderMessageInto_eq_renderMessage env opts oneString direct ok out]
      dsimp only
      rw [rest, renderAllParallel, renderAllParallel, List.mapM_cons, ok]
      cases ms.mapM (e.renderMessage env opts) <;> simp [bind, Except.bind, pure, Except.pure, Except.map]

theorem mem_of_mem_keptMessages {autoDrop : Bool} {msgs : List Message} {m : Message}
    (kept : m ∈ keptMessages autoDrop msgs) : m ∈ msgs := by
  rw [keptMessages_eq] at kept
  obtain ⟨im, listed, rfl⟩ := List.mem_map.mp kept
  exact List.snd_mem_of_mem_enum (List.mem_filter.mp listed).1

theorem renderConversation_eq_renderAllInto {conv : Conversation} {cfg : Option RenderConversationConfig}
    (single : ∀ m ∈ conv.messages, OneStringHeader m) :
    e.renderConversation env conv cfg =
      if (keptMessages (autoDropAnalysis cfg) conv.messages).length = 0 then .ok []
      else e.renderAllInto env ⟨(prepass conv.messages).hasFunctionTools⟩ (keptMessages (autoDropAnalysis cfg) conv.messages) [] := by
  unfold renderConversation
  dsimp only
  split_ifs
  · rfl
  · rw [renderAllInto_eq_parallel e env _ (fun m mem => single m (mem_of_mem_keptMessages mem))]
    cases e.renderAllParallel env _ _ <;> rfl
  · rfl

theorem renderConversation_parallel_free (conv : Conversation) (cfg : Option RenderConversationConfig)
    (single : ∀ m ∈ conv.messages, OneStringHeader m) (b : Bool) :
    e.renderConversation { env with parallel := b } conv cfg = e.renderConversation env conv cfg := by
  rw [renderConversation_eq_renderAllInto e _ single, renderConversation_eq_renderAllInto e _ single,
    renderAllInto_parallel]

end Encoding

theorem estimateMessageSize_user (t : ByteString) :
    estimateMessageSize ⟨⟨roleUser, []⟩, [], [textContent t], [], []⟩ = t.length := by
  simp [estimateMessageSize, estimateContentSize, textContent, needsRecipient]

def plainUser : Message := ⟨⟨roleUser, []⟩, [], [textContent (ascii "hi")], [], []⟩

def longUser : Message := ⟨⟨roleUser, []⟩, [], [textContent (List.replicate parallelRenderMinBytes 0x61)], [], []⟩

theorem renderConversation_parallel_free_longUser :
    shouldParallelRender toyEnv (keptMessages (autoDropAnalysis none) [plainUser, longUser]) = true ∧
      (∀ m ∈ [plainUser, longUser], Encoding.OneStringHeader m) ∧
      toyEncoding.renderConversation { toyEnv with parallel := false } ⟨[plainUser, longUser]⟩ none =
        toyEncoding.renderConversation toyEnv ⟨[plainUser, longUser]⟩ none :=
  have kept : keptMessages (autoDropAnalysis none) [plainUser, longUser] = [plainUser, longUser] := rfl
  have size : estimateMessageSize longUser = parallelRenderMinBytes :=
    (estimateMessageSize_user _).trans (List.length_replicate _ _)
  have single : ∀ m ∈ [plainUser, longUser], Encoding.OneStringHeader m := by decide
  ⟨by simp [kept, shouldParallelRender, reachesParallelBytes, size, toyEnv], single,
    toyEncoding.renderConversation_parallel_free toyEnv ⟨[plainUser, longUser]⟩ none single false⟩

end Harmony
