import Harmony.Format.ToolSchema
import Harmony.Tokenizer.Decoding

set_option autoImplicit false

namespace Harmony

open ToolSchema

namespace Utf8

-- A string `json.Marshal` quotes, as read back: a byte that starts no valid UTF-8 sequence comes back as U+FFFD.
-- The codec works on JSON trees, and of the text layer keeps only this.
def coerceFrom : Nat → ByteString → ByteString
  | 0, s => s
  | _, [] => []
  | fuel + 1, s =>
    (if (decodeRuneInString s).1 = runeError ∧ (decodeRuneInString s).2 = 1 then [0xEF, 0xBF, 0xBD]
      else s.take (decodeRuneInString s).2) ++ coerceFrom fuel (s.drop (decodeRuneInString s).2)

def coerce (s : ByteString) : ByteString := coerceFrom s.length s

def appendRune (r : Nat) : ByteString :=
  if r ≤ 0x7F then [r.toUInt8]
  else if r ≤ 0x7FF then [(0xC0 ||| r >>> 6).toUInt8, (0x80 ||| r % 64).toUInt8]
  else if 0x10FFFF < r ∨ (0xD800 ≤ r ∧ r ≤ 0xDFFF) then [0xEF, 0xBF, 0xBD]
  else if r ≤ 0xFFFF then
    [(0xE0 ||| r >>> 12).toUInt8, (0x80 ||| (r >>> 6) % 64).toUInt8, (0x80 ||| r % 64).toUInt8]
  else [(0xF0 ||| r >>> 18).toUInt8, (0x80 ||| (r >>> 12) % 64).toUInt8, (0x80 ||| (r >>> 6) % 64).toUInt8,
    (0x80 ||| r % 64).toUInt8]

end Utf8

open Utf8

-- What the codec reaches in the JSON library besides the tree: `unicode.ToUpper`, with which keys match
-- fields whatever their case, and the text layer of a `json.RawMessage`.
structure JsonLib where
  toUpper : Nat → Nat
  -- The value `json.Marshal` writes for a `RawMessage`, or its error for bytes that are not JSON.
  rawTree : ByteString → Except ByteString Json
  -- The bytes a `RawMessage` field keeps of the value it is decoded from.
  rawText : Json → ByteString
  -- Whether `addErrorContext` puts the field path of a type error an `UnmarshalJSON` method returns after the
  -- path of the field being decoded, as newer releases do, or drops it.
  keepsInnerField : Bool

-- `foldName`: ASCII letters upper-cased, other runes through `unicode.ToUpper`.
def foldNameFrom (toUpper : Nat → Nat) : Nat → ByteString → ByteString
  | 0, s => s
  | _, [] => []
  | fuel + 1, c :: rest =>
    if c < runeSelf then (if 0x61 ≤ c ∧ c ≤ 0x7A then c - 0x20 else c) :: foldNameFrom toUpper fuel rest
    else appendRune (toUpper (decodeRuneInString (c :: rest)).1) ++
      foldNameFrom toUpper fuel ((c :: rest).drop (decodeRuneInString (c :: rest)).2)

def foldName (toUpper : Nat → Nat) (s : ByteString) : ByteString := foldNameFrom toUpper s.length s

namespace GoMap

variable {κ ν : Type} [DecidableEq κ]

def empty : GoMap κ ν := ⟨[], List.nodup_nil⟩

-- `m[k] = v`
def insert (m : GoMap κ ν) (k : κ) (v : ν) : GoMap κ ν where
  entries := m.entries.filter (·.1 ≠ k) ++ [(k, v)]
  keys_nodup := by
    rw [List.map_append, List.nodup_append]
    refine ⟨m.keys_nodup.sublist ((List.filter_sublist _).map _), List.nodup_singleton _, ?_⟩
    simp [List.disjoint_singleton]

end GoMap

section Encode

variable (lib : JsonLib)

def stringJson (s : ByteString) : Json := .string (coerce s)

-- A slice: nil writes null. The model's empty list is the nil slice.
def sliceJson : List Json → Json
  | [] => .null
  | items => .array items

-- An `omitempty` string field, left out when empty.
def omitEmpty (name : String) (s : ByteString) : List (ByteString × Json) :=
  if s = [] then [] else [(ascii name, stringJson s)]

-- An `omitempty` pointer field, left out when nil.
def omitNil {α : Type} (name : String) (enc : α → Json) : Option α → List (ByteString × Json)
  | some x => [(ascii name, enc x)]
  | none => []

-- A map: its entries in the byte order of their keys.
def sortByKey {α : Type} (entries : List (ByteString × α)) : List (ByteString × α) :=
  entries.mergeSort fun a b => decide (a.1 ≤ b.1)

def toolDescriptionJson (t : ToolDescription) : Except ByteString Json := do
  let params ← if t.parameters = [] then pure [] else do pure [(ascii "parameters", ← lib.rawTree t.parameters)]
  pure (.object ([(ascii "name", stringJson t.name), (ascii "description", stringJson t.description)] ++ params))

def toolNamespaceJson (ns : ToolNamespaceConfig) : Except ByteString Json := do
  let tools ← ns.tools.mapM (toolDescriptionJson lib)
  pure (.object ([(ascii "name", stringJson ns.name)] ++ omitNil "description" stringJson ns.description ++
    [(ascii "tools", sliceJson tools)]))

-- An `omitempty` map: none when empty, left out.
def toolsJson (tools : GoMap ByteString ToolNamespaceConfig) : Except ByteString (Option Json) :=
  if tools.entries = [] then pure none
  else (fun members => some (.object members)) <$>
    (sortByKey tools.entries).mapM fun e => do pure (coerce e.1, ← toolNamespaceJson lib e.2)

def channelConfigJson (c : ChannelConfig) : Json :=
  .object [(ascii "valid_channels", sliceJson (c.validChannels.map stringJson)),
    (ascii "channel_required", .bool c.channelRequired)]

def systemContentJson (s : SystemContent) : Except ByteString Json := do
  let tools ← toolsJson lib s.tools
  pure (.object (omitNil "model_identity" stringJson s.modelIdentity ++
    omitNil "reasoning_effort" stringJson s.reasoningEffort ++ omitNil "tools" id tools ++
    omitNil "conversation_start_date" stringJson s.conversationStartDate ++
    omitNil "knowledge_cutoff" stringJson s.knowledgeCutoff ++ omitNil "channel_config" channelConfigJson s.channelConfig))

def developerContentJson (d : DeveloperContent) : Except ByteString Json := do
  let tools ← toolsJson lib d.tools
  pure (.object (omitNil "instructions" stringJson d.instructions ++ omitNil "tools" id tools))

def contentJson (c : Content) : Except ByteString Json := do
  let system ← c.system.mapM (systemContentJson lib)
  let developer ← c.developer.mapM (developerContentJson lib)
  pure (.object ([(ascii "type", stringJson c.type)] ++ omitEmpty "text" c.text ++ omitNil "system_content" id system ++
    omitNil "developer_content" id developer))

-- The content of `MarshalJSON`: one text item as a string, any other list as a list.
def contentsJson : List Content → Except ByteString Json
  | [c] => if c.type = contentText then pure (stringJson c.text) else sliceJson <$> [c].mapM (contentJson lib)
  | cs => sliceJson <$> cs.mapM (contentJson lib)

def Message.marshalJSON (m : Message) : Except ByteString Json := do
  let content ← contentsJson lib m.content
  pure (.object ([(ascii "role", stringJson m.author.role)] ++ omitEmpty "name" m.author.name ++
    omitEmpty "recipient" m.recipient ++ [(ascii "content", content)] ++ omitEmpty "channel" m.channel ++
    omitEmpty "content_type" m.contentType))

-- A `Conversation`: its messages go through `MarshalJSON`, as elements of a slice are addressable.
def conversationJson (conv : Conversation) : Except ByteString Json := do
  let messages ← conv.messages.mapM (Message.marshalJSON lib)
  pure (.object [(ascii "messages", sliceJson messages)])

end Encode

-- Where the decoder is: the struct whose field it fills and the path of field names from the value
-- `json.Unmarshal` was given; none outside every struct.
abbrev DecodeContext := Option (ByteString × List ByteString)

def DecodeContext.enter (ctx : DecodeContext) (struct field : ByteString) : DecodeContext :=
  some (struct, (ctx.map Prod.snd).getD [] ++ [field])

def Json.kind : Json → ByteString
  | .null => ascii "null"
  | .bool _ => ascii "bool"
  | .number _ => ascii "number"
  | .string _ => ascii "string"
  | .array _ => ascii "array"
  | .object _ => ascii "object"

-- `UnmarshalTypeError`: the kind of value met, the Go type it does not fit, and where.
structure TypeError where
  value : ByteString
  type : ByteString
  context : DecodeContext

def TypeError.text (err : TypeError) : ByteString :=
  match err.context with
  | some (struct, path) => ascii "json: cannot unmarshal " ++ err.value ++ ascii " into Go struct field " ++ struct ++
      ascii "." ++ joinStrings (ascii ".") path ++ ascii " of type " ++ err.type
  | none => ascii "json: cannot unmarshal " ++ err.value ++ ascii " into Go value of type " ++ err.type

def DecodeContext.path (ctx : DecodeContext) : List ByteString := (ctx.map Prod.snd).getD []

def TypeError.path (err : TypeError) : List ByteString := err.context.path

-- The errors `json.Unmarshal` returns here: a `SyntaxError` for bytes that are not JSON and an
-- `UnmarshalTypeError`.
inductive DecodeError where
  | malformed (text : ByteString)
  | type (err : TypeError)

def DecodeError.text : DecodeError → ByteString
  | .malformed text => text
  | .type err => err.text

-- Decoding a value into what a target holds: the new contents and the first type error met. A type error
-- does not stop the decoder; `json.Unmarshal` reports the first one when done.
abbrev Decoder (α : Type) := DecodeContext → Json → α → α × Option TypeError

section Decode

-- A string: null leaves it as it is.
def decodeString (type : ByteString) : Decoder ByteString := fun ctx v old =>
  match v with
  | .string s => (s, none)
  | .null => (old, none)
  | v => (old, some ⟨Json.kind v, type, ctx⟩)

def decodeBool : Decoder Bool := fun ctx v old =>
  match v with
  | .bool b => (b, none)
  | .null => (old, none)
  | v => (old, some ⟨Json.kind v, ascii "bool", ctx⟩)

-- A pointer: null sets it nil; any other value is decoded into what it points at, allocated if nil.
def decodePointer {α : Type} (zero : α) (dec : Decoder α) : Decoder (Option α) := fun ctx v old =>
  match v with
  | .null => (none, none)
  | v => let r := dec ctx v (old.getD zero); (some r.1, r.2)

-- The items of an array, each decoded into the element already at its index, or a zero one.
def decodeElements {α : Type} (zero : α) (dec : Decoder α) (ctx : DecodeContext) :
    List Json → List α → List α × Option TypeError
  | [], _ => ([], none)
  | v :: vs, olds =>
    let head := dec ctx v (olds.headD zero)
    let tail := decodeElements zero dec ctx vs olds.tail
    (head.1 :: tail.1, head.2.or tail.2)

-- A slice: null sets it nil; an array is decoded element by element and the slice cut to its length.
def decodeSlice {α : Type} (type : ByteString) (zero : α) (dec : Decoder α) : Decoder (List α) := fun ctx v old =>
  match v with
  | .null => ([], none)
  | .array items => decodeElements zero dec ctx items old
  | v => (old, some ⟨Json.kind v, type, ctx⟩)

-- One member of an object decoded into a map: a zero value decoded and stored at its key.
def decodeMapMember {α : Type} (zero : α) (dec : Decoder α) (ctx : DecodeContext)
    (acc : GoMap ByteString α × Option TypeError) (member : ByteString × Json) : GoMap ByteString α × Option TypeError :=
  let r := dec ctx member.2 zero
  (acc.1.insert member.1 r.1, acc.2.or r.2)

-- A map: null sets it nil; the members of an object are stored on top of what it holds.
def decodeMap {α : Type} (type : ByteString) (zero : α) (dec : Decoder α) : Decoder (GoMap ByteString α) :=
  fun ctx v m =>
  match v with
  | .null => (GoMap.empty, none)
  | .object members => members.foldl (decodeMapMember zero dec ctx) (m, none)
  | v => (m, some ⟨Json.kind v, type, ctx⟩)

-- A field of a struct: its JSON name and how a value decodes into it.
structure Field (σ : Type) where
  name : ByteString
  decode : Decoder σ

def Field.of {σ α : Type} (name : String) (get : σ → α) (set : σ → α → σ) (dec : Decoder α) : Field σ :=
  ⟨ascii name, fun ctx v s => let r := dec ctx v (get s); (set s r.1, r.2)⟩

variable (toUpper : Nat → Nat)

-- The field a key selects: the one of that name, else the first whose name folds to what the key folds to.
def matchField {σ : Type} (fields : List (Field σ)) (key : ByteString) : Option (Field σ) :=
  (fields.find? (·.name = key)).or (fields.find? fun f => foldName toUpper f.name = foldName toUpper key)

-- One member of an object decoded into a struct; a member no field takes is skipped.
def decodeMember {σ : Type} (struct : ByteString) (fields : List (Field σ)) (ctx : DecodeContext)
    (acc : σ × Option TypeError) (member : ByteString × Json) : σ × Option TypeError :=
  match matchField toUpper fields member.1 with
  | some f => let r := f.decode (ctx.enter struct f.name) member.2 acc.1; (r.1, acc.2.or r.2)
  | none => acc

-- A struct: the members of an object in order; null leaves it as it is.
def decodeStruct {σ : Type} (struct type : ByteString) (fields : List (Field σ)) : Decoder σ := fun ctx v s =>
  match v with
  | .object members => members.foldl (decodeMember toUpper struct fields ctx) (s, none)
  | .null => (s, none)
  | v => (s, some ⟨Json.kind v, type, ctx⟩)

end Decode

section Structs

variable (lib : JsonLib)

def stringType : ByteString := ascii "string"

-- A `json.RawMessage` keeps the bytes of whatever value it is given, null included.
def decodeRaw : Decoder ByteString := fun _ v _ => (lib.rawText v, none)

def zeroToolDescription : ToolDescription := ⟨[], [], []⟩

def toolDescriptionFields : List (Field ToolDescription) :=
  [.of "name" (·.name) (fun t x => { t with name := x }) (decodeString stringType),
   .of "description" (·.description) (fun t x => { t with description := x }) (decodeString stringType),
   .of "parameters" (·.parameters) (fun t x => { t with parameters := x }) (decodeRaw lib)]

def decodeToolDescription : Decoder ToolDescription :=
  decodeStruct lib.toUpper (ascii "ToolDescription") (ascii "harmony.ToolDescription") (toolDescriptionFields lib)

def zeroToolNamespaceConfig : ToolNamespaceConfig := ⟨[], none, []⟩

def toolNamespaceFields : List (Field ToolNamespaceConfig) :=
  [.of "name" (·.name) (fun ns x => { ns with name := x }) (decodeString stringType),
   .of "description" (·.description) (fun ns x => { ns with description := x })
     (decodePointer [] (decodeString stringType)),
   .of "tools" (·.tools) (fun ns x => { ns with tools := x })
     (decodeSlice (ascii "[]harmony.ToolDescription") zeroToolDescription (decodeToolDescription lib))]

def decodeToolNamespaceConfig : Decoder ToolNamespaceConfig :=
  decodeStruct lib.toUpper (ascii "ToolNamespaceConfig") (ascii "harmony.ToolNamespaceConfig") (toolNamespaceFields lib)

def decodeTools : Decoder (GoMap ByteString ToolNamespaceConfig) :=
  decodeMap (ascii "map[string]harmony.ToolNamespaceConfig") zeroToolNamespaceConfig (decodeToolNamespaceConfig lib)

def zeroChannelConfig : ChannelConfig := ⟨[], false⟩

def channelConfigFields : List (Field ChannelConfig) :=
  [.of "valid_channels" (·.validChannels) (fun c x => { c with validChannels := x })
     (decodeSlice (ascii "[]string") [] (decodeString stringType)),
   .of "channel_required" (·.channelRequired) (fun c x => { c with channelRequired := x }) decodeBool]

def decodeChannelConfig : Decoder ChannelConfig :=
  decodeStruct lib.toUpper (ascii "ChannelConfig") (ascii "harmony.ChannelConfig") channelConfigFields

def zeroSystemContent : SystemContent := ⟨none, none, GoMap.empty, none, none, none⟩

def systemContentFields : List (Field SystemContent) :=
  [.of "model_identity" (·.modelIdentity) (fun s x => { s with modelIdentity := x })
     (decodePointer [] (decodeString stringType)),
   .of "reasoning_effort" (·.reasoningEffort) (fun s x => { s with reasoningEffort := x })
     (decodePointer [] (decodeString (ascii "harmony.ReasoningEffort"))),
   .of "tools" (·.tools) (fun s x => { s with tools := x }) (decodeTools lib),
   .of "conversation_start_date" (·.conversationStartDate) (fun s x => { s with conversationStartDate := x })
     (decodePointer [] (decodeString stringType)),
   .of "knowledge_cutoff" (·.knowledgeCutoff) (fun s x => { s with knowledgeCutoff := x })
     (decodePointer [] (decodeString stringType)),
   .of "channel_config" (·.channelConfig) (fun s x => { s with channelConfig := x })
     (decodePointer zeroChannelConfig (decodeChannelConfig lib))]

def decodeSystemContent : Decoder SystemContent :=
  decodeStruct lib.toUpper (ascii "SystemContent") (ascii "harmony.SystemContent") (systemContentFields lib)

def zeroDeveloperContent : DeveloperContent := ⟨none, GoMap.empty⟩

def developerContentFields : List (Field DeveloperContent) :=
  [.of "instructions" (·.instructions) (fun d x => { d with instructions := x })
     (decodePointer [] (decodeString stringType)),
   .of "tools" (·.tools) (fun d x => { d with tools := x }) (decodeTools lib)]

def decodeDeveloperContent : Decoder DeveloperContent :=
  decodeStruct lib.toUpper (ascii "DeveloperContent") (ascii "harmony.DeveloperContent") (developerContentFields lib)

def zeroContent : Content := ⟨[], [], none, none⟩

def contentFields : List (Field Content) :=
  [.of "type" (·.type) (fun c x => { c with type := x }) (decodeString (ascii "harmony.ContentType")),
   .of "text" (·.text) (fun c x => { c with text := x }) (decodeString stringType),
   .of "system_content" (·.system) (fun c x => { c with system := x })
     (decodePointer zeroSystemContent (decodeSystemContent lib)),
   .of "developer_content" (·.developer) (fun c x => { c with developer := x })
     (decodePointer zeroDeveloperContent (decodeDeveloperContent lib))]

def decodeContent : Decoder Content :=
  decodeStruct lib.toUpper (ascii "Content") (ascii "harmony.Content") (contentFields lib)

-- The struct `UnmarshalJSON` decodes into first. Its content is a `json.RawMessage`, kept here as the value
-- itself, which is what decoding those bytes again gives; none when no member set it.
structure RawFields where
  role : ByteString
  name : ByteString
  recipient : ByteString
  content : Option Json
  channel : ByteString
  contentType : ByteString

def zeroRawFields : RawFields := ⟨[], [], [], none, [], []⟩

def rawFields : List (Field RawFields) :=
  [.of "role" (·.role) (fun r x => { r with role := x }) (decodeString (ascii "harmony.Role")),
   .of "name" (·.name) (fun r x => { r with name := x }) (decodeString stringType),
   .of "recipient" (·.recipient) (fun r x => { r with recipient := x }) (decodeString stringType),
   ⟨ascii "content", fun _ v r => ({ r with content := some v }, none)⟩,
   .of "channel" (·.channel) (fun r x => { r with channel := x }) (decodeString stringType),
   .of "content_type" (·.contentType) (fun r x => { r with contentType := x }) (decodeString stringType)]

-- The content of `UnmarshalJSON`: a string is one text item, anything else must be a list of items. Bytes
-- no member set do not parse at all.
def unmarshalContent : Option Json → Except DecodeError (List Content)
  | none => .error (.malformed (ascii "unexpected end of JSON input"))
  | some c => match decodeString stringType none c [] with
    | (s, none) => .ok [textContent s]
    | (_, some _) => match decodeSlice (ascii "[]harmony.Content") zeroContent (decodeContent lib) none c [] with
      | (arr, none) => .ok arr
      | (_, some err) => .error (.type err)

def Message.unmarshalJSON (v : Json) : Except DecodeError Message :=
  match decodeStruct lib.toUpper (ascii "raw") (ascii "harmony.raw") rawFields none v zeroRawFields with
  | (_, some err) => .error (.type err)
  | (r, none) => (unmarshalContent lib r.content).map fun content =>
    ⟨⟨r.role, r.name⟩, r.recipient, content, r.channel, r.contentType⟩

-- `addErrorContext`: an error that an `UnmarshalJSON` method returns below the field `ctx` names reaches the
-- caller, a type error taking that field's struct and path, followed by its own path where `keepsInnerField`.
def DecodeError.inContext (ctx : DecodeContext) : DecodeError → DecodeError
  | .type err => match ctx with
    | some (struct, path) => .type { err with context := some (struct, if lib.keepsInnerField then path ++ err.path else path) }
    | none => .type err
  | e => e

-- The "messages" of a `Conversation`: each element goes through `UnmarshalJSON`, whose error ends the whole
-- decoding at once.
def decodeMessages (ctx : DecodeContext) :
    Json → List Message → Except DecodeError (List Message × Option TypeError)
  | .null, _ => .ok ([], none)
  | .array items, _ => match items.mapM (Message.unmarshalJSON lib) with
    | .ok msgs => .ok (msgs, none)
    | .error e => .error (DecodeError.inContext lib ctx e)
  | v, old => .ok (old, some ⟨Json.kind v, ascii "[]harmony.Message", ctx⟩)

def decodeConversationMember (acc : Except DecodeError (List Message × Option TypeError))
    (member : ByteString × Json) : Except DecodeError (List Message × Option TypeError) := do
  let (msgs, err) ← acc
  if member.1 = ascii "messages" ∨ foldName lib.toUpper member.1 = foldName lib.toUpper (ascii "messages") then
    let (msgs, err') ← decodeMessages lib (some (ascii "Conversation", [ascii "messages"])) member.2 msgs
    pure (msgs, err.or err')
  else pure (msgs, err)

-- `json.Unmarshal` into a `Conversation`, as the command-line tool reads one.
def decodeConversation (v : Json) : Except DecodeError Conversation := do
  let (msgs, err) ← match v with
    | .object members => members.foldl (decodeConversationMember lib) (.ok ([], none))
    | .null => .ok ([], none)
    | v => .ok ([], some ⟨Json.kind v, ascii "harmony.Conversation", none⟩)
  match err with
  | some err => .error (.type err)
  | none => pure ⟨msgs⟩

end Structs

def nullJsonLib : JsonLib := ⟨id, fun _ => .ok .null, fun _ => ascii "null", true⟩

end Harmony
