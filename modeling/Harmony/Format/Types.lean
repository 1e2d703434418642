import Harmony.Runtime.Maps
import Harmony.Runtime.Utf8

set_option autoImplicit false

namespace Harmony

-- `type Role string`: any string can stand in a message; five are named.
abbrev Role := ByteString

def roleUser : Role := ascii "user"
def roleAssistant : Role := ascii "assistant"
def roleSystem : Role := ascii "system"
def roleDeveloper : Role := ascii "developer"
def roleTool : Role := ascii "tool"

structure Author where
  role : Role
  name : ByteString
deriving DecidableEq, Repr

abbrev ReasoningEffort := ByteString

structure ChannelConfig where
  validChannels : List ByteString
  channelRequired : Bool
deriving DecidableEq, Repr

-- The `parsed` cache is derived from `parameters` and left out.
structure ToolDescription where
  name : ByteString
  description : ByteString
  parameters : ByteString
deriving DecidableEq, Repr

structure ToolNamespaceConfig where
  name : ByteString
  description : Option ByteString
  tools : List ToolDescription
deriving DecidableEq, Repr

-- Pointer fields are `Option`s; a nil map and an empty one read the same, so both are the empty `GoMap`.
structure SystemContent where
  modelIdentity : Option ByteString
  reasoningEffort : Option ReasoningEffort
  tools : GoMap ByteString ToolNamespaceConfig
  conversationStartDate : Option ByteString
  knowledgeCutoff : Option ByteString
  channelConfig : Option ChannelConfig

structure DeveloperContent where
  instructions : Option ByteString
  tools : GoMap ByteString ToolNamespaceConfig

abbrev ContentType := ByteString

def contentText : ContentType := ascii "text"
def contentSystem : ContentType := ascii "system_content"
def contentDeveloper : ContentType := ascii "developer_content"

structure Content where
  type : ContentType
  text : ByteString
  system : Option SystemContent
  developer : Option DeveloperContent

structure Message where
  author : Author
  recipient : ByteString
  content : List Content
  channel : ByteString
  contentType : ByteString

structure Conversation where
  messages : List Message

structure RenderConversationConfig where
  autoDropAnalysis : Bool

def textContent (text : ByteString) : Content := ⟨contentText, text, none, none⟩

end Harmony
