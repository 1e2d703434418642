import Harmony.Format.Encoding
import Harmony.Format.Header

set_option autoImplicit false

namespace Harmony

inductive StreamState where
  | expectStart
  | header
  | content
deriving DecidableEq, Repr

-- `StreamParser` without `enc`, which every function takes, and `scratch`, which only holds the
-- bytes copied into `lastDeltaBytes`.
structure StreamParser where
  nextRole : Option Role
  state : StreamState
  tokens : List Rank
  messages : List Message
  headerToks : List Rank
  contentToks : List Rank
  lastDeltaBytes : ByteString

-- `NewStreamParser`: a hinted parser starts in the header.
def newStreamParser (role : Option Role) : StreamParser :=
  ⟨role, if role.isSome then .header else .expectStart, [], [], [], [], []⟩

namespace StreamParser

variable (e : Encoding) (U : UnicodeTables)

-- `parseHeaderFromTokens`, which reads `p.nextRole` and nothing else of the parser.
def parseHeaderFromTokens (nextRole : Option Role) (header : List Rank) : Except ByteString ParsedHeader := do
  let s ← e.bpe.decodeUTF8 header
  pure (parseHeaderText U nextRole s)

-- `finalizeMessage`: the parser after it, and its error. The body is decoded before anything changes.
def finalizeMessage (p : StreamParser) : StreamParser × Option ByteString :=
  if p.messages.length = 0 then (p, none)
  else
    match e.bpe.decodeUTF8 p.contentToks with
    | .error err => (p, some err)
    | .ok text =>
      ({ p with messages := p.messages.modify (fun m => { m with content := [textContent text] }) (p.messages.length - 1),
                headerToks := [], contentToks := [] }, none)

-- `Process(token)`: the parser after it, and its error. The token is recorded first, whatever follows.
def process (p : StreamParser) (token : Rank) : StreamParser × Option ByteString :=
  let p := { p with tokens := p.tokens ++ [token] }
  match p.state with
  | .expectStart =>
    if token = tokStart then ({ p with headerToks := [], state := .header }, none)
    else (p, some (ascii "unexpected token while expecting <|start|>"))
  | .header =>
    if token = tokStart then (p, none)
    else if token = tokMessage then
      match parseHeaderFromTokens e U p.nextRole p.headerToks with
      | .error err => (p, some err)
      | .ok hdr =>
        ({ p with nextRole := none, contentToks := [], state := .content,
                  messages := p.messages ++ [⟨hdr.author, hdr.recipient, [], hdr.channel, hdr.contentType⟩] },
          none)
    else ({ p with headerToks := p.headerToks ++ [token] }, none)
  | .content =>
    if token ∈ stopAll then
      match finalizeMessage e p with
      | (p, some err) => (p, some err)
      | (p, none) => ({ p with state := .expectStart }, none)
    else
      let p := { p with contentToks := p.contentToks ++ [token] }
      match e.bpe.decodeBytesInto [] [token] with
      | .error err => (p, some err)
      | .ok delta => ({ p with lastDeltaBytes := delta }, none)

def processEOS (p : StreamParser) : StreamParser × Option ByteString :=
  if p.state = .content then finalizeMessage e p else (p, none)

-- The loop of `ParseMessagesFromCompletionTokens`, which stops at the first error.
def processAll : StreamParser → List Rank → Except ByteString StreamParser
  | p, [] => .ok p
  | p, t :: ts =>
    match process e U p t with
    | (p, none) => processAll p ts
    | (_, some err) => .error err

-- `CurrentRole`: the role of the message being read, the hint otherwise.
def currentRole (p : StreamParser) : Option Role :=
  match p.state with
  | .content => p.messages.getLast?.map (·.author.role)
  | _ => p.nextRole

-- `CurrentContent`: the body read so far, "" outside Content or when it does not decode.
def currentContent (p : StreamParser) : ByteString :=
  if p.state ≠ .content then []
  else
    match e.bpe.decodeUTF8 p.contentToks with
    | .ok s => s
    | .error _ => []

-- `CurrentContentType`, `CurrentChannel` and `CurrentRecipient`: one header field of the message being read,
-- "" outside Content.
def currentField (field : Message → ByteString) (p : StreamParser) : ByteString :=
  if p.state ≠ .content ∨ p.messages.length = 0 then [] else (p.messages.getLast?.map field).getD []

def currentContentType : StreamParser → ByteString := currentField Message.contentType

def currentChannel : StreamParser → ByteString := currentField Message.channel

def currentRecipient : StreamParser → ByteString := currentField Message.recipient

def lastContentDelta (p : StreamParser) : ByteString := p.lastDeltaBytes

-- `StateJSON`: `json.Marshal` of the state's name under "state", which cannot fail.
def stateJSON (p : StreamParser) : ByteString :=
  let name := match p.state with
    | .expectStart => ascii "ExpectStart"
    | .header => ascii "Header"
    | .content => ascii "Content"
  ascii "\x7b\"state\":\"" ++ name ++ ascii "\"\x7d"

end StreamParser

def Encoding.parseMessagesFromCompletionTokens (e : Encoding) (U : UnicodeTables) (tokens : List Rank)
    (role : Option Role) : Except ByteString (List Message) := do
  let p ← StreamParser.processAll e U (newStreamParser role) tokens
  match StreamParser.processEOS e p with
  | (p, none) => pure p.messages
  | (_, some err) => throw err

end Harmony
