import Harmony.Format.Render

set_option autoImplicit false

namespace Harmony

def channelFinal : ByteString := ascii "final"
def channelAnalysis : ByteString := ascii "analysis"

def optionLength (s : Option ByteString) : Nat := (s.map List.length).getD 0

def estimateToolsMapSize (tools : GoMap ByteString ToolNamespaceConfig) : Nat :=
  (tools.entries.map fun e => e.2.name.length + optionLength e.2.description +
    (e.2.tools.map fun t => t.name.length + t.description.length + t.parameters.length).sum).sum

def estimateChannelConfigSize (cfg : ChannelConfig) : Nat :=
  (cfg.validChannels.map List.length).sum + if cfg.channelRequired then 1 else 0

def estimateSystemContentSize (sys : SystemContent) : Nat :=
  optionLength sys.modelIdentity + optionLength sys.reasoningEffort + optionLength sys.conversationStartDate +
    optionLength sys.knowledgeCutoff + (sys.channelConfig.map estimateChannelConfigSize).getD 0 +
    estimateToolsMapSize sys.tools

def estimateDeveloperContentSize (dev : DeveloperContent) : Nat :=
  optionLength dev.instructions + estimateToolsMapSize dev.tools

def estimateContentSize (c : Content) : Nat :=
  if c.type = contentText then c.text.length
  else if c.type = contentSystem then (c.system.map estimateSystemContentSize).getD 0
  else if c.type = contentDeveloper then (c.developer.map estimateDeveloperContentSize).getD 0
  else 0

def estimateMessageSize (m : Message) : Nat :=
  m.author.name.length + m.channel.length + m.contentType.length +
    (if needsRecipient m then m.recipient.length else 0) + (m.content.map estimateContentSize).sum

def parallelRenderMinBytes : Nat := 8 * 1024

-- The running total of the loop in `shouldParallelRender`, which returns as soon as it reaches 8 KiB.
def reachesParallelBytes : Nat → List Message → Bool
  | _, [] => false
  | total, m :: ms =>
    if parallelRenderMinBytes ≤ total + estimateMessageSize m then true
    else reachesParallelBytes (total + estimateMessageSize m) ms

def shouldParallelRender (env : RenderEnv) (kept : List Message) : Bool :=
  env.parallel && 2 ≤ kept.length && reachesParallelBytes 0 kept

structure Prepass where
  lastAssistantFinal : Bool
  firstFinal : Int
  hasFunctionTools : Bool

-- A developer item that declares a non-empty "functions" namespace.
def declaresFunctionTools (c : Content) : Bool :=
  c.type = contentDeveloper &&
    match c.developer with
    | some dev =>
      match dev.tools.get? (ascii "functions") with
      | some ns => ns.tools ≠ []
      | none => false
    | none => false

def prepassStep (acc : Prepass) (i : Nat) (m : Message) : Prepass where
  firstFinal := if m.channel = channelFinal ∧ acc.firstFinal = -1 then i else acc.firstFinal
  lastAssistantFinal := if m.author.role = roleAssistant then decide (m.channel = channelFinal) else acc.lastAssistantFinal
  hasFunctionTools := acc.hasFunctionTools || m.content.any declaresFunctionTools

def prepass (msgs : List Message) : Prepass :=
  msgs.enum.foldl (fun acc im => prepassStep acc im.1 im.2) ⟨false, -1, false⟩

-- `if shouldDrop && firstFinal >= 0 && i < firstFinal && m.Channel == "analysis" { continue }`
def dropped (shouldDrop : Bool) (firstFinal : Int) (i : Nat) (m : Message) : Bool :=
  shouldDrop && 0 ≤ firstFinal && (i : Int) < firstFinal && m.channel = channelAnalysis

-- The messages at `renderIdx`, in order.
def keptMessages (autoDrop : Bool) (msgs : List Message) : List Message :=
  let pre := prepass msgs
  (msgs.enum.filter fun im => !dropped (autoDrop && pre.lastAssistantFinal) pre.firstFinal im.1 im.2).map Prod.snd

-- `cfg == nil || cfg.AutoDropAnalysis`
def autoDropAnalysis (cfg : Option RenderConversationConfig) : Bool :=
  match cfg with
  | some c => c.autoDropAnalysis
  | none => true

namespace Encoding

variable (e : Encoding) (env : RenderEnv) (opts : RenderOptions)

-- The sequential path: `renderMessageInto` for each kept message, stopping at the first error.
def renderAllInto : List Message → List Rank → Except ByteString (List Rank)
  | [], out => .ok out
  | m :: ms, out =>
    match e.renderMessageInto env opts m out with
    | (out, none) => renderAllInto ms out
    | (_, some err) => .error err

-- The parallel path: `renderMessage` per kept message, joined in slot order. Which error the
-- goroutines report first is up to the scheduler; this is the schedule that reports them in order.
def renderAllParallel (kept : List Message) : Except ByteString (List Rank) :=
  (kept.mapM (e.renderMessage env opts)).map List.flatten

def renderConversation (conv : Conversation) (cfg : Option RenderConversationConfig) :
    Except ByteString (List Rank) :=
  let kept := keptMessages (autoDropAnalysis cfg) conv.messages
  if kept.length = 0 then .ok []
  else
    let opts : RenderOptions := ⟨(prepass conv.messages).hasFunctionTools⟩
    if shouldParallelRender env kept then e.renderAllParallel env opts kept
    else e.renderAllInto env opts kept []

def renderConversationForCompletion (conv : Conversation) (next : Role)
    (cfg : Option RenderConversationConfig) : Except ByteString (List Rank) := do
  let out ← e.renderConversation env conv cfg
  pure (e.renderText next (out ++ [idStart]))

def renderConversationForTraining (conv : Conversation) (cfg : Option RenderConversationConfig) :
    Except ByteString (List Rank) :=
  match conv.messages.getLast? with
  | none => .ok []
  | some last => do
    let out ← e.renderConversation env conv cfg
    if last.author.role = roleAssistant ∧ last.channel = channelFinal then
      if out.length = 0 then pure out else pure (out.set (out.length - 1) idReturn)
    else pure out

-- `Render`: `renderMessage` with the default options.
def render (m : Message) : Except ByteString (List Rank) := e.renderMessage env ⟨false⟩ m

end Encoding

end Harmony
