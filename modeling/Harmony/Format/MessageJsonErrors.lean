import Harmony.Format.MessageJsonLaws

set_option autoImplicit false

namespace Harmony

open ToolSchema Utf8

-- A Go type as `json.Unmarshal` sees it, with its name as errors print it.
inductive GoType where
  | string (name : ByteString)
  | bool
  -- A type with its own `UnmarshalJSON`, which is handed any value: `json.RawMessage`, `Message`.
  | unmarshaler (name : ByteString)
  | pointer (elem : GoType)
  | slice (name : ByteString) (elem : GoType)
  | map (name : ByteString) (elem : GoType)
  | struct (name : ByteString) (fields : List (ByteString × GoType))

namespace GoType

-- The type an error names; a pointer is decoded through, so an error names what it points at.
def name : GoType → ByteString
  | .string name | .unmarshaler name | .slice name _ | .map name _ | .struct name _ => name
  | .bool => ascii "bool"
  | .pointer elem => elem.name

-- The values a type is decoded from without a type error.
def fits : GoType → Json → Bool
  | .pointer elem, v => elem.fits v
  | .unmarshaler _, _ | _, .null | .string _, .string _ | .bool, .bool _ | .slice _ _, .array _
  | .map _ _, .object _ | .struct _ _, .object _ => true
  | _, _ => false

-- `t.Reaches toUpper v path t' u`: decoding `v` as a `t` meets `u` where a `t'` is expected, and the struct
-- fields on the way are `path`; a member of a struct is taken by a field its key folds to. Array items and map
-- members add nothing to the path, as `UnmarshalTypeError` writes it.
inductive Reaches (toUpper : Nat → Nat) : GoType → Json → List ByteString → GoType → Json → Prop
  | here (t : GoType) (v : Json) : Reaches toUpper t v [] t v
  | pointer {elem t : GoType} {v u : Json} {path : List ByteString} :
      Reaches toUpper elem v path t u → Reaches toUpper (.pointer elem) v path t u
  | item {name : ByteString} {elem t : GoType} {items : List Json} {w u : Json} {path : List ByteString} :
      w ∈ items → Reaches toUpper elem w path t u → Reaches toUpper (.slice name elem) (.array items) path t u
  | entry {name k : ByteString} {elem t : GoType} {members : List (ByteString × Json)} {w u : Json}
      {path : List ByteString} :
      (k, w) ∈ members → Reaches toUpper elem w path t u → Reaches toUpper (.map name elem) (.object members) path t u
  | field {name k f : ByteString} {fields : List (ByteString × GoType)} {ft t : GoType}
      {members : List (ByteString × Json)} {w u : Json} {path : List ByteString} :
      (k, w) ∈ members → (f, ft) ∈ fields → foldName toUpper k = foldName toUpper f →
      Reaches toUpper ft w path t u → Reaches toUpper (.struct name fields) (.object members) (f :: path) t u

end GoType

section Located

variable (toUpper : Nat → Nat)

-- Where a type error met decoding `v` as a `t` at `ctx` lies: at a value `u` inside `v` that does not fit the
-- type `t'` expected there, of which it names the kind, with `t'` as its type and the fields to `u` after
-- those of `ctx` as its path.
def Locates (t : GoType) (ctx : DecodeContext) (v : Json) (err : TypeError) : Prop :=
  ∃ path t' u, t.Reaches toUpper v path t' u ∧ t'.fits u = false ∧ err.value = Json.kind u ∧ err.type = t'.name ∧
    err.path = ctx.path ++ path

-- A decoder for `t` reports every type error where it lies.
def ErrorsLocated {α : Type} (t : GoType) (dec : Decoder α) : Prop :=
  ∀ ctx v old err, (dec ctx v old).2 = some err → Locates toUpper t ctx v err

variable {toUpper}

theorem locates_here {t : GoType} {ctx : DecodeContext} {v : Json} (unfit : t.fits v = false) :
    Locates toUpper t ctx v ⟨Json.kind v, t.name, ctx⟩ :=
  ⟨[], t, v, .here t v, unfit, rfl, rfl, (List.append_nil _).symm⟩

theorem or_eq_some_cases {α : Type} {o o' : Option α} {a : α} (found : o.or o' = some a) : o = some a ∨ o' = some a := by
  cases o <;> simp_all

theorem foldl_error {α β : Type} {P : TypeError → Prop} {f : α × Option TypeError → β → α × Option TypeError}
    {bs : List β} (step : ∀ acc, ∀ b ∈ bs, ∀ err, (f acc b).2 = some err → acc.2 = some err ∨ P err)
    {a : α} {err : TypeError} (failed : (bs.foldl f (a, none)).2 = some err) : P err :=
  foldl_invariant (I := fun acc => ∀ err, acc.2 = some err → P err)
    (fun acc b mem earlier err failed => (step acc b mem err failed).elim (earlier err) id) _
    (fun _ absent => by cases absent) err failed

theorem matchField_some {σ : Type} {fields : List (Field σ)} {key : ByteString} {f : Field σ}
    (found : matchField toUpper fields key = some f) : f ∈ fields ∧ foldName toUpper key = foldName toUpper f.name := by
  rcases or_eq_some_cases found with exact | folded
  · have same := List.find?_some exact
    simp only [decide_eq_true_eq] at same
    exact ⟨List.mem_of_find?_eq_some exact, by rw [same]⟩
  · have same := List.find?_some folded
    simp only [decide_eq_true_eq] at same
    exact ⟨List.mem_of_find?_eq_some folded, same.symm⟩

theorem forall₂_mem_left {α β : Type} {R : α → β → Prop} :
    ∀ {as : List α} {bs : List β}, List.Forall₂ R as bs → ∀ {a : α}, a ∈ as → ∃ b ∈ bs, R a b
  | _, _, .cons head _, _, .head _ => ⟨_, List.mem_cons_self _ _, head⟩
  | _, _, .cons _ rest, _, .tail _ mem =>
    let ⟨b, found, related⟩ := forall₂_mem_left rest mem
    ⟨b, List.mem_cons_of_mem _ found, related⟩

theorem decodeString_located (name : ByteString) : ErrorsLocated toUpper (.string name) (decodeString name) := by
  intro ctx v old err failed
  cases v
  case string | null => cases failed
  all_goals
    cases failed
    exact locates_here (by rfl)

theorem decodeBool_located : ErrorsLocated toUpper .bool decodeBool := by
  intro ctx v old err failed
  cases v
  case bool | null => cases failed
  all_goals
    cases failed
    exact locates_here (by rfl)

theorem decodeRaw_located (lib : JsonLib) (name : ByteString) : ErrorsLocated toUpper (.unmarshaler name) (decodeRaw lib) :=
  fun _ _ _ _ failed => nomatch failed

section Compound

variable {α : Type} {t : GoType} {zero : α} {dec : Decoder α} (inner : ErrorsLocated toUpper t dec)
include inner

theorem decodePointer_located : ErrorsLocated toUpper (.pointer t) (decodePointer zero dec) := by
  intro ctx v old err failed
  cases v
  case null => cases failed
  all_goals
    obtain ⟨path, t', u, reach, rest⟩ := inner _ _ _ _ failed
    exact ⟨path, t', u, .pointer reach, rest⟩

theorem decodeElements_located {ctx : DecodeContext} {err : TypeError} :
    ∀ {items : List Json} {olds : List α}, (decodeElements zero dec ctx items olds).2 = some err →
      ∃ w ∈ items, Locates toUpper t ctx w err
  | [], _, failed => nomatch failed
  | v :: vs, olds, failed => by
    rcases or_eq_some_cases failed with here | later
    · exact ⟨v, List.mem_cons_self _ _, inner _ _ _ _ here⟩
    · obtain ⟨w, mem, located⟩ := decodeElements_located later
      exact ⟨w, List.mem_cons_of_mem _ mem, located⟩

theorem decodeSlice_located (name : ByteString) : ErrorsLocated toUpper (.slice name t) (decodeSlice name zero dec) := by
  intro ctx v old err failed
  cases v
  case null => cases failed
  case array items =>
    obtain ⟨w, mem, path, t', u, reach, rest⟩ := decodeElements_located inner failed
    exact ⟨path, t', u, .item mem reach, rest⟩
  all_goals
    cases failed
    exact locates_here (by rfl)

theorem decodeMap_located (name : ByteString) : ErrorsLocated toUpper (.map name t) (decodeMap name zero dec) := by
  intro ctx v m err failed
  cases v
  case null => cases failed
  case object members =>
    refine foldl_error (fun acc member mem err failed => (or_eq_some_cases failed).imp_right fun here => ?_) failed
    obtain ⟨path, t', u, reach, rest⟩ := inner _ _ _ _ here
    exact ⟨path, t', u, .entry mem reach, rest⟩
  all_goals
    cases failed
    exact locates_here (by rfl)

end Compound

theorem Field.of_located {σ α : Type} {t : GoType} {dec : Decoder α} (inner : ErrorsLocated toUpper t dec) (name : String)
    (get : σ → α) (set : σ → α → σ) : ErrorsLocated toUpper t (Field.of name get set dec).decode :=
  fun ctx v s err failed => inner ctx v (get s) err failed

theorem decodeStruct_located {σ : Type} {struct name : ByteString} {fields : List (Field σ)}
    {types : List (ByteString × GoType)}
    (typed : List.Forall₂ (fun f ft => f.name = ft.1 ∧ ErrorsLocated toUpper ft.2 f.decode) fields types) :
    ErrorsLocated toUpper (.struct name types) (decodeStruct toUpper struct name fields) := by
  intro ctx v s err failed
  cases v
  case null => cases failed
  case object members =>
    refine foldl_error (fun acc member mem err failed => ?_) failed
    unfold decodeMember at failed
    split at failed
    next f found =>
      refine (or_eq_some_cases failed).imp_right fun here => ?_
      obtain ⟨listed, folded⟩ := matchField_some found
      obtain ⟨⟨fname, ft⟩, typeListed, rfl, fieldLocated⟩ := forall₂_mem_left typed listed
      obtain ⟨path, t', u, reach, rest⟩ := fieldLocated _ _ _ _ here
      refine ⟨f.name :: path, t', u, .field mem typeListed folded reach, ?_⟩
      simpa [DecodeContext.enter, DecodeContext.path] using rest
    next => exact .inl failed
  all_goals
    cases failed
    exact locates_here (by rfl)

end Located

def toolDescriptionType : GoType :=
  .struct (ascii "harmony.ToolDescription")
    [(ascii "name", .string stringType), (ascii "description", .string stringType),
     (ascii "parameters", .unmarshaler (ascii "json.RawMessage"))]

def toolNamespaceConfigType : GoType :=
  .struct (ascii "harmony.ToolNamespaceConfig")
    [(ascii "name", .string stringType), (ascii "description", .pointer (.string stringType)),
     (ascii "tools", .slice (ascii "[]harmony.ToolDescription") toolDescriptionType)]

def toolsType : GoType := .map (ascii "map[string]harmony.ToolNamespaceConfig") toolNamespaceConfigType

def channelConfigType : GoType :=
  .struct (ascii "harmony.ChannelConfig")
    [(ascii "valid_channels", .slice (ascii "[]string") (.string stringType)), (ascii "channel_required", .bool)]

def systemContentType : GoType :=
  .struct (ascii "harmony.SystemContent")
    [(ascii "model_identity", .pointer (.string stringType)),
     (ascii "reasoning_effort", .pointer (.string (ascii "harmony.ReasoningEffort"))),
     (ascii "tools", toolsType),
     (ascii "conversation_start_date", .pointer (.string stringType)),
     (ascii "knowledge_cutoff", .pointer (.string stringType)),
     (ascii "channel_config", .pointer channelConfigType)]

def developerContentType : GoType :=
  .struct (ascii "harmony.DeveloperContent")
    [(ascii "instructions", .pointer (.string stringType)), (ascii "tools", toolsType)]

def contentType : GoType :=
  .struct (ascii "harmony.Content")
    [(ascii "type", .string (ascii "harmony.ContentType")), (ascii "text", .string stringType),
     (ascii "system_content", .pointer systemContentType), (ascii "developer_content", .pointer developerContentType)]

def contentsType : GoType := .slice (ascii "[]harmony.Content") contentType

-- The struct `raw` of `UnmarshalJSON`.
def rawType : GoType :=
  .struct (ascii "harmony.raw")
    [(ascii "role", .string (ascii "harmony.Role")), (ascii "name", .string stringType),
     (ascii "recipient", .string stringType), (ascii "content", .unmarshaler (ascii "json.RawMessage")),
     (ascii "channel", .string stringType), (ascii "content_type", .string stringType)]

def messagesType : GoType := .slice (ascii "[]harmony.Message") (.unmarshaler (ascii "harmony.Message"))

def conversationType : GoType := .struct (ascii "harmony.Conversation") [(ascii "messages", messagesType)]

section Structs

variable (lib : JsonLib)

theorem decodeToolDescription_located : ErrorsLocated lib.toUpper toolDescriptionType (decodeToolDescription lib) :=
  decodeStruct_located
    (.cons ⟨rfl, Field.of_located (decodeString_located _) _ _ _⟩
    (.cons ⟨rfl, Field.of_located (decodeString_located _) _ _ _⟩
    (.cons ⟨rfl, Field.of_located (decodeRaw_located lib _) _ _ _⟩ .nil)))

theorem decodeToolNamespaceConfig_located :
    ErrorsLocated lib.toUpper toolNamespaceConfigType (decodeToolNamespaceConfig lib) :=
  decodeStruct_located
    (.cons ⟨rfl, Field.of_located (decodeString_located _) _ _ _⟩
    (.cons ⟨rfl, Field.of_located (decodePointer_located (decodeString_located _)) _ _ _⟩
    (.cons ⟨rfl, Field.of_located (decodeSlice_located (decodeToolDescription_located lib) _) _ _ _⟩ .nil)))

theorem decodeTools_located : ErrorsLocated lib.toUpper toolsType (decodeTools lib) :=
  decodeMap_located (decodeToolNamespaceConfig_located lib) _

theorem decodeChannelConfig_located : ErrorsLocated lib.toUpper channelConfigType (decodeChannelConfig lib) :=
  decodeStruct_located
    (.cons ⟨rfl, Field.of_located (decodeSlice_located (decodeString_located _) _) _ _ _⟩
    (.cons ⟨rfl, Field.of_located decodeBool_located _ _ _⟩ .nil))

theorem decodeSystemContent_located : ErrorsLocated lib.toUpper systemContentType (decodeSystemContent lib) :=
  decodeStruct_located
    (.cons ⟨rfl, Field.of_located (decodePointer_located (decodeString_located _)) _ _ _⟩
    (.cons ⟨rfl, Field.of_located (decodePointer_located (decodeString_located _)) _ _ _⟩
    (.cons ⟨rfl, Field.of_located (decodeTools_located lib) _ _ _⟩
    (.cons ⟨rfl, Field.of_located (decodePointer_located (decodeString_located _)) _ _ _⟩
    (.cons ⟨rfl, Field.of_located (decodePointer_located (decodeString_located _)) _ _ _⟩
    (.cons ⟨rfl, Field.of_located (decodePointer_located (decodeChannelConfig_located lib)) _ _ _⟩ .nil))))))

theorem decodeDeveloperContent_located :
    ErrorsLocated lib.toUpper developerContentType (decodeDeveloperContent lib) :=
  decodeStruct_located
    (.cons ⟨rfl, Field.of_located (decodePointer_located (decodeString_located _)) _ _ _⟩
    (.cons ⟨rfl, Field.of_located (decodeTools_located lib) _ _ _⟩ .nil))

theorem decodeContent_located : ErrorsLocated lib.toUpper contentType (decodeContent lib) :=
  decodeStruct_located
    (.cons ⟨rfl, Field.of_located (decodeString_located _) _ _ _⟩
    (.cons ⟨rfl, Field.of_located (decodeString_located _) _ _ _⟩
    (.cons ⟨rfl, Field.of_located (decodePointer_located (decodeSystemContent_located lib)) _ _ _⟩
    (.cons ⟨rfl, Field.of_located (decodePointer_located (decodeDeveloperContent_located lib)) _ _ _⟩ .nil))))

theorem decodeRawFields_located :
    ErrorsLocated lib.toUpper rawType (decodeStruct lib.toUpper (ascii "raw") (ascii "harmony.raw") rawFields) :=
  decodeStruct_located
    (.cons ⟨rfl, Field.of_located (decodeString_located _) _ _ _⟩
    (.cons ⟨rfl, Field.of_located (decodeString_located _) _ _ _⟩
    (.cons ⟨rfl, Field.of_located (decodeString_located _) _ _ _⟩
    (.cons ⟨rfl, fun _ _ _ _ failed => nomatch failed⟩
    (.cons ⟨rfl, Field.of_located (decodeString_located _) _ _ _⟩
    (.cons ⟨rfl, Field.of_located (decodeString_located _) _ _ _⟩ .nil))))))

end Structs

section Messages

variable (lib : JsonLib)

-- Whether a key selects the field "content" of `raw`.
def selectsContent (key : ByteString) : Prop := (matchField lib.toUpper rawFields key).map Field.name = some (ascii "content")

instance (key : ByteString) : Decidable (selectsContent lib key) := inferInstanceAs (Decidable (_ = _))

theorem decodeMember_raw_content (ctx : DecodeContext) (acc : RawFields × Option TypeError) (member : ByteString × Json) :
    (decodeMember lib.toUpper (ascii "raw") rawFields ctx acc member).1.content =
      if selectsContent lib member.1 then some member.2 else acc.1.content := by
  unfold decodeMember selectsContent
  split
  next f found =>
    have listed := (matchField_some found).1
    simp only [rawFields, List.mem_cons, List.mem_singleton, List.not_mem_nil, or_false] at listed
    rcases listed with rfl | rfl | rfl | rfl | rfl | rfl <;> simp +decide [found, Field.of]
  next found => simp [found]

theorem raw_content_member {members : List (ByteString × Json)} {ctx : DecodeContext} {c : Json}
    (read : (members.foldl (decodeMember lib.toUpper (ascii "raw") rawFields ctx) (zeroRawFields, none)).1.content =
      some c) :
    ∃ k, (k, c) ∈ members ∧ foldName lib.toUpper k = foldName lib.toUpper (ascii "content") := by
  refine foldl_invariant (I := fun acc : RawFields × Option TypeError => ∀ c, acc.1.content = some c →
      ∃ k, (k, c) ∈ members ∧ foldName lib.toUpper k = foldName lib.toUpper (ascii "content"))
    (fun acc member mem earlier c read => ?_) _ (fun _ absent => by cases absent) c read
  rw [decodeMember_raw_content] at read
  split at read
  next selected =>
    cases read
    obtain ⟨f, found, named⟩ := Option.map_eq_some'.mp selected
    exact ⟨member.1, mem, (matchField_some found).2.trans (by rw [named])⟩
  next => exact earlier c read

theorem raw_content_of_key {members : List (ByteString × Json)} {ctx : DecodeContext}
    {acc : RawFields × Option TypeError} (keyed : ascii "content" ∈ members.map Prod.fst) :
    (members.foldl (decodeMember lib.toUpper (ascii "raw") rawFields ctx) acc).1.content ≠ none := by
  obtain ⟨⟨k, w⟩, mem, rfl⟩ := List.mem_map.mp keyed
  obtain ⟨pre, post, rfl⟩ := List.append_of_mem mem
  have exact : selectsContent lib (ascii "content") := rfl
  rw [List.foldl_append, List.foldl_cons]
  refine foldl_invariant (I := fun acc : RawFields × Option TypeError => acc.1.content ≠ none) (fun acc member _ earlier => ?_) _ ?_
  · dsimp only
    rw [decodeMember_raw_content]
    split
    · exact Option.some_ne_none _
    · exact earlier
  · dsimp only
    rw [decodeMember_raw_content, if_pos exact]
    exact Option.some_ne_none _

theorem unmarshalContent_error {c : Option Json} {e : DecodeError} (failed : unmarshalContent lib c = .error e) :
    (c = none ∧ e = .malformed (ascii "unexpected end of JSON input")) ∨
      ∃ v err, c = some v ∧ e = .type err ∧ Locates lib.toUpper contentsType none v err := by
  unfold unmarshalContent at failed
  split at failed
  · cases failed
    exact .inl ⟨rfl, rfl⟩
  · rename_i v
    split at failed
    · cases failed
    · split at failed
      · cases failed
      · rename_i err decoded
        cases failed
        exact .inr ⟨v, err, rfl, rfl,
          decodeSlice_located (decodeContent_located lib) _ none v [] err (by rw [decoded])⟩

theorem unmarshalJSON_error_located {v : Json} {e : DecodeError} (failed : Message.unmarshalJSON lib v = .error e) :
    (e = .malformed (ascii "unexpected end of JSON input") ∧
      ∀ members, v = .object members → ascii "content" ∉ members.map Prod.fst) ∨
    ∃ err, e = .type err ∧ (Locates lib.toUpper rawType none v err ∨
      ∃ members k c, v = .object members ∧ (k, c) ∈ members ∧
        foldName lib.toUpper k = foldName lib.toUpper (ascii "content") ∧ Locates lib.toUpper contentsType none c err) := by
  unfold Message.unmarshalJSON at failed
  split at failed
  next err decoded =>
    cases failed
    exact .inr ⟨err, rfl, .inl (decodeRawFields_located lib none v zeroRawFields err (by rw [decoded]))⟩
  next r decoded =>
    have contentFailed : unmarshalContent lib r.content = .error e := by
      cases read : unmarshalContent lib r.content <;> simp_all [Except.map]
    rcases unmarshalContent_error lib contentFailed with ⟨absent, rfl⟩ | ⟨c, err, present, rfl, located⟩
    · refine .inl ⟨rfl, fun members object keyed => ?_⟩
      subst object
      rw [decodeStruct_object] at decoded
      exact raw_content_of_key lib keyed (by rw [decoded]; exact absent)
    · refine .inr ⟨err, rfl, .inr ?_⟩
      cases v
      case object members =>
        rw [decodeStruct_object] at decoded
        obtain ⟨k, mem, folded⟩ := raw_content_member lib (c := c) (by rw [decoded]; exact present)
        exact ⟨members, k, c, rfl, mem, folded, located⟩
      all_goals cases decoded <;> cases present

def numberTypedMessage : Json :=
  .object [(ascii "role", .string (ascii "user")),
    (ascii "content", .array [.object [(ascii "type", .number (ascii "5"))]])]

def numberTypeError : TypeError := ⟨ascii "number", ascii "harmony.ContentType", some (ascii "Content", [ascii "type"])⟩

theorem unmarshalJSON_error_located_numberType :
    Message.unmarshalJSON nullJsonLib numberTypedMessage = .error (.type numberTypeError) ∧
    ((DecodeError.type numberTypeError = .malformed (ascii "unexpected end of JSON input") ∧
      ∀ members, numberTypedMessage = .object members → ascii "content" ∉ members.map Prod.fst) ∨
    ∃ err, DecodeError.type numberTypeError = .type err ∧
      (Locates nullJsonLib.toUpper rawType none numberTypedMessage err ∨
      ∃ members k c, numberTypedMessage = .object members ∧ (k, c) ∈ members ∧
        foldName nullJsonLib.toUpper k = foldName nullJsonLib.toUpper (ascii "content") ∧
        Locates nullJsonLib.toUpper contentsType none c err)) :=
  have failed : Message.unmarshalJSON nullJsonLib numberTypedMessage = .error (.type numberTypeError) := by rfl
  ⟨failed, unmarshalJSON_error_located nullJsonLib failed⟩

theorem decodeMessages_cases (ctx : DecodeContext) (w : Json) (old : List Message) :
    (∃ msgs, decodeMessages lib ctx w old = .ok (msgs, none)) ∨
    (∃ items item e, w = .array items ∧ item ∈ items ∧ Message.unmarshalJSON lib item = .error e ∧
      decodeMessages lib ctx w old = .error (DecodeError.inContext lib ctx e)) ∨
    (messagesType.fits w = false ∧ decodeMessages lib ctx w old = .ok (old, some ⟨Json.kind w, messagesType.name, ctx⟩)) := by
  cases w
  case null => exact .inl ⟨[], rfl⟩
  case array items =>
    cases read : items.mapM (Message.unmarshalJSON lib) with
    | ok msgs => exact .inl ⟨msgs, by simp only [decodeMessages, read]⟩
    | error e =>
      obtain ⟨item, mem, failed⟩ := mapM_eq_error read
      exact .inr (.inl ⟨items, item, e, rfl, mem, failed, by simp only [decodeMessages, read]⟩)
  all_goals exact .inr (.inr ⟨rfl, rfl⟩)

-- The errors a conversation's members can lead to: a message's error, in the context of "messages", or a type
-- error that lies in the conversation.
structure ConversationErrors (members : List (ByteString × Json))
    (acc : Except DecodeError (List Message × Option TypeError)) : Prop where
  hard : ∀ e, acc = .error e → ∃ k items item e', (k, .array items) ∈ members ∧
    foldName lib.toUpper k = foldName lib.toUpper (ascii "messages") ∧ item ∈ items ∧
    Message.unmarshalJSON lib item = .error e' ∧
    e = DecodeError.inContext lib (some (ascii "Conversation", [ascii "messages"])) e'
  typed : ∀ msgs err, acc = .ok (msgs, some err) → Locates lib.toUpper conversationType none (.object members) err

theorem decodeConversationMember_errors {members : List (ByteString × Json)} {member : ByteString × Json}
    (mem : member ∈ members) {acc : Except DecodeError (List Message × Option TypeError)}
    (earlier : ConversationErrors lib members acc) :
    ConversationErrors lib members (decodeConversationMember lib acc member) := by
  obtain ⟨k, w⟩ := member
  cases acc with
  | error e => exact earlier
  | ok acc =>
    obtain ⟨msgs, err⟩ := acc
    unfold decodeConversationMember
    split_ifs with selected
    · have folded : foldName lib.toUpper k = foldName lib.toUpper (ascii "messages") := by
        rcases selected with rfl | folded
        · rfl
        · exact folded
      rcases decodeMessages_cases lib (some (ascii "Conversation", [ascii "messages"])) w msgs with
        ⟨msgs', read⟩ | ⟨items, item, e, rfl, listed, failed, read⟩ | ⟨unfit, read⟩
      · refine ⟨fun _ done => (by simp [read, bind, Except.bind, pure, Except.pure] at done), fun _ err' done => ?_⟩
        simp only [read, bind, Except.bind, pure, Except.pure, Except.ok.injEq, Prod.mk.injEq, Option.or_none] at done
        exact earlier.typed _ _ (by rw [done.2])
      · refine ⟨fun e' done => ?_, fun _ _ done => (by simp [read, bind, Except.bind] at done)⟩
        simp only [read, bind, Except.bind, Except.error.injEq] at done
        exact ⟨k, items, item, e, mem, folded, listed, failed, done.symm⟩
      · refine ⟨fun _ done => (by simp [read, bind, Except.bind, pure, Except.pure] at done), fun _ err' done => ?_⟩
        simp only [read, bind, Except.bind, pure, Except.pure, Except.ok.injEq, Prod.mk.injEq] at done
        rcases or_eq_some_cases done.2 with before | here
        · exact earlier.typed _ _ (by rw [before])
        · cases here
          exact ⟨[ascii "messages"], messagesType, w, .field mem (List.mem_singleton_self _) folded (.here _ _), unfit,
            rfl, rfl, rfl⟩
    · exact earlier

theorem decodeConversation_error_located {v : Json} {e : DecodeError} (failed : decodeConversation lib v = .error e) :
    (∃ err, e = .type err ∧ Locates lib.toUpper conversationType none v err) ∨
    ∃ members k items item e', v = .object members ∧ (k, .array items) ∈ members ∧
      foldName lib.toUpper k = foldName lib.toUpper (ascii "messages") ∧ item ∈ items ∧
      Message.unmarshalJSON lib item = .error e' ∧
      e = DecodeError.inContext lib (some (ascii "Conversation", [ascii "messages"])) e' := by
  unfold decodeConversation at failed
  cases v
  case object members =>
    have reached : ConversationErrors lib members (members.foldl (decodeConversationMember lib) (.ok ([], none))) :=
      foldl_invariant (fun acc member mem earlier => decodeConversationMember_errors lib mem earlier) _
        ⟨fun _ absent => (by cases absent), fun _ _ absent => (by cases absent)⟩
    rcases except_bind_eq_error failed with hard | ⟨⟨msgs, err⟩, read, typed⟩
    · obtain ⟨k, items, item, e', mem, folded, listed, itemFailed, rfl⟩ := reached.hard e hard
      exact .inr ⟨members, k, items, item, e', rfl, mem, folded, listed, itemFailed, rfl⟩
    · cases err with
      | none => cases typed
      | some err =>
        cases typed
        exact .inl ⟨err, rfl, reached.typed msgs err read⟩
  case null => cases failed
  all_goals
    cases failed
    exact .inl ⟨_, rfl, locates_here (by rfl)⟩

def numberTypedConversation : Json := .object [(ascii "messages", .array [numberTypedMessage])]

def numberTypeInConversation : TypeError :=
  ⟨ascii "number", ascii "harmony.ContentType", some (ascii "Conversation", [ascii "messages", ascii "type"])⟩

theorem decodeConversation_error_located_numberType :
    decodeConversation nullJsonLib numberTypedConversation = .error (.type numberTypeInConversation) ∧
    ((∃ err, DecodeError.type numberTypeInConversation = .type err ∧
      Locates nullJsonLib.toUpper conversationType none numberTypedConversation err) ∨
    ∃ members k items item e', numberTypedConversation = .object members ∧ (k, .array items) ∈ members ∧
      foldName nullJsonLib.toUpper k = foldName nullJsonLib.toUpper (ascii "messages") ∧ item ∈ items ∧
      Message.unmarshalJSON nullJsonLib item = .error e' ∧
      DecodeError.type numberTypeInConversation =
        DecodeError.inContext nullJsonLib (some (ascii "Conversation", [ascii "messages"])) e') :=
  have failed : decodeConversation nullJsonLib numberTypedConversation = .error (.type numberTypeInConversation) := by
    rfl
  ⟨failed, decodeConversation_error_located nullJsonLib failed⟩

end Messages

end Harmony
