import Harmony.Format.Encoding

set_option autoImplicit false

namespace Harmony

-- What one render call reads besides the encoding: `HARMONY_RENDER_PARALLEL` (presizing changes no output and
-- is left out), `strings.ToLower`, and for a tool with parameters the text `parsedParameters` and
-- `renderSchemaObjectWithOrder` give between "(_:" and "\n}) => any;" in that call's `range` order (`none` when
-- the JSON does not parse or is null); `renderEnvOf` derives it from the text layer and `toolSchemaText`.
structure RenderEnv where
  parallel : Bool
  toLower : ByteString → ByteString
  schemaText : ByteString → Option ByteString

structure RenderOptions where
  conversationHasFunctionTools : Bool

-- `strings.Join`
def joinStrings (sep : ByteString) : List ByteString → ByteString
  | [] => []
  | [s] => s
  | s :: rest => s ++ sep ++ joinStrings sep rest

-- `sort.Strings`: byte order.
def sortStrings (names : List ByteString) : List ByteString := names.mergeSort fun a b => decide (a ≤ b)

-- `strings.TrimRight(s, "\n")`
def trimRightNewlines (s : ByteString) : ByteString := (s.reverse.dropWhile (· == 0x0A)).reverse

-- `writeCommentLines`: each line of `text`, the last one even when empty, as "// line\n".
def writeCommentLines : Nat → ByteString → ByteString
  | 0, _ => []
  | fuel + 1, rest =>
    match rest.findIdx? (· == 0x0A) with
    | none => ascii "// " ++ rest ++ ascii "\n"
    | some i => ascii "// " ++ rest.take i ++ ascii "\n" ++ writeCommentLines fuel (rest.drop (i + 1))

def commentLines (text : ByteString) : ByteString := writeCommentLines (text.length + 1) text

section Tools

variable (env : RenderEnv)

def toolText (tool : ToolDescription) : ByteString :=
  commentLines tool.description ++
    if tool.parameters = [] then ascii "type " ++ tool.name ++ ascii " = () => any;\n\n"
    else match env.schemaText tool.parameters with
      | none => ascii "type " ++ tool.name ++ ascii " = (_: any) => any;\n\n"
      | some schema => ascii "type " ++ tool.name ++ ascii " = (_:" ++ schema ++ ascii "\n\x7d) => any;\n\n"

-- The buffer `writeToolsSection` fills for one namespace.
def namespaceText (ns : ToolNamespaceConfig) : ByteString :=
  ascii "## " ++ ns.name ++ ascii "\n\n" ++
    (match ns.description with
      | some d => if d = [] then [] else if ns.tools ≠ [] then commentLines d else d ++ ascii "\n\n"
      | none => []) ++
    if ns.tools ≠ [] then
      ascii "namespace " ++ ns.name ++ ascii " \x7b\n\n" ++ (ns.tools.map (toolText env)).flatten ++
        ascii "\x7d // namespace " ++ ns.name
    else []

-- What `writeToolsSection` writes: namespaces in name order, each trimmed of trailing newlines.
def writeToolsSection (tools : GoMap ByteString ToolNamespaceConfig) : ByteString :=
  if tools.entries = [] then []
  else ascii "# Tools" ++ ((sortStrings tools.keys).map fun nsName =>
    ascii "\n\n" ++ trimRightNewlines (namespaceText env ((tools.get? nsName).getD ⟨[], none, []⟩))).flatten

end Tools

-- `addSection`: sections are separated by a blank line.
def addSection (body part : ByteString) : ByteString :=
  (if body.length > 0 then body ++ ascii "\n\n" else body) ++ part

-- A pointer field that is nil or points at "" falls back to `default`.
def orDefault (field : Option ByteString) (default : ByteString) : ByteString :=
  match field with
  | some s => if s ≠ [] then s else default
  | none => default

def defaultChannelConfig : ChannelConfig :=
  ⟨[ascii "analysis", ascii "commentary", ascii "final"], true⟩

-- The body `renderSystemContent` builds before encoding it.
def systemContentText (env : RenderEnv) (sys : SystemContent) (opts : RenderOptions) : ByteString :=
  let identity := orDefault sys.modelIdentity (ascii "You are ChatGPT, a large language model trained by OpenAI.") ++
    ascii "\nKnowledge cutoff: " ++ orDefault sys.knowledgeCutoff (ascii "2024-06") ++
    (match sys.conversationStartDate with
      | some d => if d ≠ [] then ascii "\nCurrent date: " ++ d else []
      | none => [])
  let body := addSection [] identity
  let effort := match sys.reasoningEffort with
    | some r => env.toLower r
    | none => ascii "medium"
  let body := addSection body (ascii "Reasoning: " ++ effort)
  let body := if sys.tools.entries ≠ [] then addSection body (writeToolsSection env sys.tools) else body
  let chanCfg := sys.channelConfig.getD defaultChannelConfig
  if chanCfg.validChannels ≠ [] then
    addSection body (ascii "# Valid channels: " ++ joinStrings (ascii ", ") chanCfg.validChannels ++ ascii "." ++
      (if chanCfg.channelRequired then ascii " Channel must be included for every message." else []) ++
      (if opts.conversationHasFunctionTools then
        ascii "\nCalls to these tools must go to the commentary channel: \x27functions\x27." else []))
  else body

-- The body `renderDeveloperContent` builds before encoding it.
def developerContentText (env : RenderEnv) (dev : DeveloperContent) : ByteString :=
  let body := match dev.instructions with
    | some i => if i ≠ [] then ascii "# Instructions\n\n" ++ i else []
    | none => []
  if dev.tools.entries ≠ [] then
    (if body.length > 0 then body ++ ascii "\n\n" else body) ++ writeToolsSection env dev.tools
  else body

def needsRecipient (m : Message) : Prop := m.recipient ≠ [] ∧ m.recipient ≠ ascii "all"

instance (m : Message) : Decidable (needsRecipient m) := inferInstanceAs (Decidable (_ ∧ _))

-- `msg.Author.Role == RoleTool && msg.Author.Name == ""`, which both renderers reject.
def toolWithoutName (m : Message) : Prop := m.author.role = roleTool ∧ m.author.name = []

instance (m : Message) : Decidable (toolWithoutName m) := inferInstanceAs (Decidable (_ ∧ _))

-- `<|call|>` ends an assistant message to a recipient, `<|end|>` every other.
def terminator (m : Message) : Rank :=
  if m.author.role = roleAssistant ∧ needsRecipient m then idCall else idEnd

namespace Encoding

variable (e : Encoding) (env : RenderEnv) (opts : RenderOptions)

def renderSystemContent (sys : SystemContent) (out : List Rank) : List Rank :=
  e.renderText (systemContentText env sys opts) out

def renderDeveloperContent (dev : DeveloperContent) (out : List Rank) : List Rank :=
  e.renderText (developerContentText env dev) out

-- The content loop both renderers share: the tokens so far, and the error that stopped it.
def renderContents : List Content → List Rank → List Rank × Option ByteString
  | [], out => (out, none)
  | c :: cs, out =>
    if c.type = contentText then renderContents cs (e.renderText c.text out)
    else if c.type = contentSystem then
      match c.system with
      | none => (out, some (ascii "nil SystemContent"))
      | some sys => renderContents cs (e.renderSystemContent env opts sys out)
    else if c.type = contentDeveloper then
      match c.developer with
      | none => (out, some (ascii "nil DeveloperContent"))
      | some dev => renderContents cs (e.renderDeveloperContent env dev out)
    else (out, some (ascii "unknown content type: " ++ c.type))

-- `renderMessage`'s header: role, ":", name, " to=" and recipient, each encoded on its own.
def renderHeaderPieces (m : Message) (out : List Rank) : List Rank :=
  if m.author.role = roleTool then
    if needsRecipient m then
      e.renderText m.recipient (e.renderText (ascii " to=") (e.renderText m.author.name out))
    else e.renderText m.author.name out
  else if m.author.name = [] ∧ ¬ needsRecipient m then e.renderText m.author.role out
  else
    let out := e.renderText m.author.role out
    let out := if m.author.name ≠ [] then e.renderText m.author.name (e.renderText (ascii ":") out) else out
    if needsRecipient m then e.renderText m.recipient (e.renderText (ascii " to=") out) else out

-- `renderMessageInto`'s header: the same parts joined into one string, encoded once.
def renderHeaderJoined (m : Message) (out : List Rank) : List Rank :=
  if m.author.role = roleTool then
    if needsRecipient m then e.renderText (m.author.name ++ ascii " to=" ++ m.recipient) out
    else e.renderText m.author.name out
  else if m.author.name = [] ∧ ¬ needsRecipient m then e.renderText m.author.role out
  else
    e.renderText (m.author.role ++ (if m.author.name ≠ [] then ascii ":" ++ m.author.name else []) ++
      (if needsRecipient m then ascii " to=" ++ m.recipient else [])) out

def renderChannelAndType (m : Message) (out : List Rank) : List Rank :=
  let out := if m.channel ≠ [] then e.renderText m.channel (out ++ [idChannel]) else out
  if m.contentType ≠ [] then e.renderContentType m.contentType out else out

def renderMessage (m : Message) : Except ByteString (List Rank) := do
  let out ← renderFormattingToken "<|start|>" []
  if toolWithoutName m then throw (ascii "tool messages must have a name") else
  let out := e.renderHeaderPieces m out
  let out ← if m.channel ≠ [] then (renderFormattingToken "<|channel|>" out).map (e.renderText m.channel)
    else pure out
  let out := if m.contentType ≠ [] then e.renderContentType m.contentType out else out
  let out ← renderFormattingToken "<|message|>" out
  match e.renderContents env opts m.content out with
  | (_, some err) => throw err
  | (out, none) =>
    renderFormattingToken (if m.author.role = roleAssistant ∧ needsRecipient m then "<|call|>" else "<|end|>") out

-- `renderMessageInto(msg, opts, &out)`: the new `*out`, and the error. On an error `*out` keeps what
-- was appended before it.
def renderMessageInto (m : Message) (out : List Rank) : List Rank × Option ByteString :=
  let out := out ++ [idStart]
  if toolWithoutName m then (out, some (ascii "tool messages must have a name"))
  else
    match e.renderContents env opts m.content (e.renderChannelAndType m (e.renderHeaderJoined m out) ++ [idMessage]) with
    | (out, some err) => (out, some err)
    | (out, none) => (out ++ [terminator m], none)

end Encoding

end Harmony
