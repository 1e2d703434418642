import Harmony.Format.ToolSchema
import Harmony.Runtime.Strings

set_option autoImplicit false

namespace Harmony

section Order

theorem byte_eq_of_not_lt {x y : UInt8} (h₁ : ¬ x < y) (h₂ : ¬ y < x) : x = y :=
  byte_eq_iff.mpr (by simp only [byte_lt_iff] at h₁ h₂; omega)

theorem bytes_lt_trichotomy : ∀ (a b : ByteString), a.lt b ∨ a = b ∨ b.lt a
  | [], [] => .inr (.inl rfl)
  | [], _ :: _ => .inl (.nil _ _)
  | _ :: _, [] => .inr (.inr (.nil _ _))
  | x :: xs, y :: ys => by
    by_cases lt : x < y
    · exact .inl (.head _ _ lt)
    by_cases gt : y < x
    · exact .inr (.inr (.head _ _ gt))
    obtain rfl := byte_eq_of_not_lt lt gt
    rcases bytes_lt_trichotomy xs ys with less | rfl | more
    · exact .inl (.tail lt lt less)
    · exact .inr (.inl rfl)
    · exact .inr (.inr (.tail lt lt more))

theorem bytes_lt_asymm {a b : ByteString} (less : a.lt b) : ¬ b.lt a := by
  induction less with
  | nil => exact nofun
  | head _ _ lt =>
    rintro (_ | ⟨_, _, gt⟩ | ⟨_, notLt, _⟩)
    · exact absurd lt (by rw [byte_lt_iff] at gt ⊢; omega)
    · exact notLt lt
  | tail _ notGt _ ih =>
    rintro (_ | ⟨_, _, gt⟩ | ⟨_, _, rest⟩)
    · exact notGt gt
    · exact ih rest

theorem bytes_lt_trans {a b c : ByteString} (ab : a.lt b) (bc : b.lt c) : a.lt c := by
  induction ab generalizing c with
  | nil => cases bc <;> exact .nil _ _
  | head _ _ lt =>
    rcases bc with _ | ⟨_, _, lt'⟩ | ⟨notLt, notGt, _⟩
    · exact .head _ _ (by rw [byte_lt_iff] at lt lt' ⊢; omega)
    · exact .head _ _ (byte_eq_of_not_lt notLt notGt ▸ lt)
  | tail notLt notGt _ ih =>
    rcases bc with _ | ⟨_, _, lt'⟩ | ⟨notLt', notGt', rest⟩
    · exact .head _ _ ((byte_eq_of_not_lt notLt notGt).symm ▸ lt')
    · obtain rfl := byte_eq_of_not_lt notLt notGt
      exact .tail notLt' notGt' (ih rest)

instance : IsAntisymm ByteString (fun a b => decide (a ≤ b) = true) where
  antisymm a b ab ba := by
    simp only [decide_eq_true_eq] at ab ba
    rcases bytes_lt_trichotomy a b with less | same | more
    · exact absurd less ba
    · exact same
    · exact absurd more ab

theorem sortStrings_sorted (names : List ByteString) :
    (sortStrings names).Sorted (fun a b => decide (a ≤ b) = true) :=
  List.sorted_mergeSort
    (fun a b c ab bc => by
      simp only [decide_eq_true_eq] at ab bc ⊢
      intro ca
      rcases bytes_lt_trichotomy a b with less | rfl | more
      · exact bc (bytes_lt_trans ca less)
      · exact bc ca
      · exact ab more)
    (fun a b => by
      simp only [Bool.or_eq_true, decide_eq_true_eq]
      by_contra both
      push_neg at both
      exact bytes_lt_asymm (not_not.mp both.1) (not_not.mp both.2))
    names

theorem sortStrings_perm {names names' : List ByteString} (perm : names.Perm names') :
    sortStrings names = sortStrings names' :=
  List.eq_of_perm_of_sorted (((List.mergeSort_perm _ _).trans perm).trans (List.mergeSort_perm _ _).symm)
    (sortStrings_sorted names) (sortStrings_sorted names')

end Order

namespace ToolSchema

-- `strconv` as `json.Unmarshal` and `fmt` use it on a number literal: whether the literal is a finite `float64`,
-- and the text `fmt.Sprint` prints for that `float64`.
structure FloatFormat where
  parses : ByteString → Bool
  sprint : ByteString → ByteString

-- The `indent` argument: "\n" and then spaces. It is never empty, so the closing brace's
-- `indent[:len(indent)-1]` is in range.
structure Indent where
  text : ByteString
  nonempty : text ≠ []

def Indent.extend (indent : Indent) (more : ByteString) : Indent := ⟨indent.text ++ more, by simp [indent.nonempty]⟩

-- The indent `writeToolsSection` passes.
def Indent.line : Indent := ⟨ascii "\n", by decide⟩

-- `m, _ := schema.(map[string]any)`: the members of the decoded map, none when the schema is no object.
def objectMembers : Json → List (ByteString × Json)
  | .object members => members
  | _ => []

def mget (v : Json) (key : ByteString) : Option Json := assignLast (objectMembers v) Prod.fst Prod.snd key

def getString (v : Json) (key : ByteString) : Option ByteString :=
  match mget v key with
  | some (.string s) => some s
  | _ => none

-- `x, ok := v.([]any)` with `ok && len(x) > 0`.
def nonEmptyArray : Option Json → Option (List Json)
  | some (.array (x :: xs)) => some (x :: xs)
  | _ => none

-- The keys of a decoded map, sorted, as `range` and then `sort.Strings` collect them.
def sortedKeys {α : Type} (members : List (ByteString × α)) : List ByteString :=
  sortStrings (members.map Prod.fst).dedup

-- `m["required"]`'s strings: the keys whose line has no "?".
def requiredNames (m : Json) : List ByteString :=
  match mget m (ascii "required") with
  | some (.array names) => names.filterMap fun | .string s => some s | _ => none
  | _ => []

-- The line of the property `key` up to its type: `indent`, the key, "?" when it is not required, and ":".
def declaration (required : List ByteString) (indent : Indent) (key : ByteString) : ByteString :=
  indent.text ++ key ++ (if key ∈ required then [] else ascii "?") ++ ascii ":"

section Text

variable (F : FloatFormat)

mutual

-- `fmt.Sprint` of a decoded value; a map prints as "map[k:v ...]" with its keys sorted.
def sprint : Json → ByteString
  | .null => ascii "<nil>"
  | .bool b => if b then ascii "true" else ascii "false"
  | .number literal => F.sprint literal
  | .string s => s
  | .array items => ascii "[" ++ joinStrings (ascii " ") (sprintItems items) ++ ascii "]"
  | .object members =>
    let printed := sprintMembers members
    ascii "map[" ++ joinStrings (ascii " ")
      ((sortedKeys printed).filterMap fun k => (assignLast printed Prod.fst Prod.snd k).map (k ++ ascii ":" ++ ·)) ++
      ascii "]"

def sprintItems : List Json → List ByteString
  | [] => []
  | v :: vs => sprint v :: sprintItems vs

def sprintMembers : List (ByteString × Json) → List (ByteString × ByteString)
  | [] => []
  | (k, v) :: rest => (k, sprint v) :: sprintMembers rest

end

def stringifyLiteral : Json → ByteString
  | .string s => ascii "\"" ++ s ++ ascii "\""
  | .bool b => if b then ascii "true" else ascii "false"
  | v => sprint F v

def isEnum (schema : Json) : Bool := (nonEmptyArray (mget schema (ascii "enum"))).isSome

def defaultCommentLiteral (schema dflt : Json) : ByteString :=
  match dflt with
  | .string s => if isEnum schema then s else stringifyLiteral F (.string s)
  | _ => stringifyLiteral F dflt

theorem sizeOf_lt_of_mget {v w : Json} {key : ByteString} (found : mget v key = some w) : sizeOf w < sizeOf v := by
  obtain ⟨⟨k, w⟩, mem, -, rfl⟩ := assignLast_sound found
  cases v with
  | object members =>
    have := List.sizeOf_lt_of_mem mem
    simp only [objectMembers, Prod.mk.sizeOf_spec, Json.object.sizeOf_spec] at this ⊢
    omega
  | _ => cases mem

theorem sizeOf_lt_of_nonEmptyArray {v : Json} {key : ByteString} {items : List Json}
    (found : nonEmptyArray (mget v key) = some items) : sizeOf items < sizeOf v := by
  unfold nonEmptyArray at found
  split at found
  · rename_i x xs array
    cases found
    have := sizeOf_lt_of_mget array
    simp only [Json.array.sizeOf_spec] at this
    omega
  · cases found

theorem sizeOf_property_le (m : List (ByteString × Json)) (key : ByteString) :
    sizeOf ((assignLast (propertiesMembers (.object m)) Prod.fst Prod.snd key).getD .null) ≤ sizeOf m := by
  have positive : 1 ≤ sizeOf m := by
    cases m <;> simp only [List.nil.sizeOf_spec, List.cons.sizeOf_spec] <;> omega
  rw [propertiesMembers]
  split
  · rename_i props listed
    cases found : assignLast props Prod.fst Prod.snd key with
    | none => simpa using positive
    | some v =>
      have inner := sizeOf_lt_of_mget (v := .object props) found
      have outer := sizeOf_lt_of_mget (v := .object m) listed
      simp only [Json.object.sizeOf_spec, Option.getD_some] at inner outer ⊢
      omega
  · simpa [assignLast] using positive

mutual

def schemaToTS (schema : Json) (indent : Indent) : ByteString :=
  match schema with
  | .object members =>
    match getString (.object members) (ascii "type") with
    | some t =>
      if t = ascii "object" then
        ascii "\x7b" ++ renderProperties members indent (sortedKeys (propertiesMembers (.object members))) ++
          ascii "\n" ++ indent.text.dropLast ++ ascii "\x7d"
      else if t = ascii "string" then
        match nonEmptyArray (mget (.object members) (ascii "enum")) with
        | some values => joinStrings (ascii " | ") (values.map fun v => ascii "\"" ++ sprint F v ++ ascii "\"")
        | none => ascii "string"
      else if t = ascii "number" ∨ t = ascii "integer" then ascii "number"
      else if t = ascii "boolean" then ascii "boolean"
      else if t = ascii "array" then
        match _found : mget (.object members) (ascii "items") with
        | some items => schemaToTS items indent ++ ascii "[]"
        | none => ascii "Array<any>"
      else unionToTS members indent
    | none => unionToTS members indent
  | _ => ascii "any"
termination_by 3 * sizeOf schema
decreasing_by
  all_goals simp_wf
  all_goals first
    | omega
    | have := sizeOf_lt_of_mget _found; simp only [Json.object.sizeOf_spec] at this; omega

-- The rest of `schemaToTS`, for a map whose "type" is no string it knows: the union of the "type" names, or of
-- the "oneOf" schemas, or any.
def unionToTS (members : List (ByteString × Json)) (indent : Indent) : ByteString :=
  match nonEmptyArray (mget (.object members) (ascii "type")) with
  | some names => joinStrings (ascii " | ") (names.map fun v => if sprint F v = ascii "integer" then ascii "number" else sprint F v)
  | none =>
    match _found : nonEmptyArray (mget (.object members) (ascii "oneOf")) with
    | some oneOf => joinStrings (ascii " | ") (schemasToTS oneOf indent)
    | none => ascii "any"
termination_by 3 * sizeOf members + 2
decreasing_by
  simp_wf
  have := sizeOf_lt_of_nonEmptyArray _found
  simp only [Json.object.sizeOf_spec] at this
  omega

def schemasToTS : List Json → Indent → List ByteString
  | [], _ => []
  | v :: vs, indent => schemaToTS v indent :: schemasToTS vs indent
termination_by vs => 3 * sizeOf vs
decreasing_by
  all_goals simp_wf
  omega

-- The loop of `renderSchemaObjectWithOrder` over `keys`, for the map `m` the schema decodes to. A key the
-- decoded properties lack reads as nil.
def renderProperties (m : List (ByteString × Json)) (indent : Indent) (keys : List ByteString) : ByteString :=
  (keys.map fun key => propertyBlock (requiredNames (.object m)) indent key
    ((assignLast (propertiesMembers (.object m)) Prod.fst Prod.snd key).getD .null)).flatten
termination_by 3 * sizeOf m + 2
decreasing_by
  simp_wf
  have := sizeOf_property_le m key
  omega

-- One turn of that loop: the comments above the property `key`, then its line.
def propertyBlock (required : List ByteString) (indent : Indent) (key : ByteString) (val : Json) : ByteString :=
  let line := indent.text
  let title := match getString val (ascii "title") with
    | some t => if t = [] then [] else line ++ ascii "// " ++ t ++ line ++ ascii "//"
    | none => []
  let description := match getString val (ascii "description") with
    | some d => if d = [] then [] else ((d.splitOn 0x0A).map fun l => line ++ ascii "// " ++ l).flatten
    | none => []
  let examples := match nonEmptyArray (mget val (ascii "examples")) with
    | some exs => line ++ ascii "// Examples:" ++ (exs.map fun ex => line ++ ascii "// - " ++ stringifyLiteral F ex).flatten
    | none => []
  let comments := title ++ description ++ examples
  match _found : nonEmptyArray (mget val (ascii "oneOf")) with
  | some oneOf =>
    let dflt := match mget val (ascii "default") with
      | some d => line ++ ascii "// default: " ++ defaultCommentLiteral F val d
      | none => []
    comments ++ dflt ++ declaration required indent key ++
      (variantLines ((getString val (ascii "description")).getD []) indent 0 oneOf ++ line ++ ascii ",")
  | none =>
    let nullable := match mget val (ascii "nullable") with
      | some (.bool b) => b
      | _ => false
    let ts := schemaToTS val (indent.extend (ascii "    "))
    let ts := if nullable && !Strings.contains ts (ascii "null") then ts ++ ascii " | null" else ts
    comments ++ declaration required indent key ++
      (ascii " " ++ ts ++ match mget val (ascii "default") with
        | some d => ascii ", // default: " ++ defaultCommentLiteral F val d
        | none => ascii ",")
termination_by 3 * sizeOf val + 1
decreasing_by
  all_goals simp_wf
  all_goals first
    | omega
    | have := sizeOf_lt_of_nonEmptyArray _found; omega

-- The variants of a "oneOf" property, `i` counting them from 0; a variant repeating the property's description
-- first does not repeat it.
def variantLines (propDesc : ByteString) (indent : Indent) : Nat → List Json → ByteString
  | _, [] => []
  | i, variant :: rest =>
    let own := match getString variant (ascii "description") with
      | some d => if d ≠ [] ∧ ¬ (i = 0 ∧ propDesc ≠ [] ∧ d = propDesc) then [d] else []
      | none => []
    let dflt := match mget variant (ascii "default") with
      | some d => [ascii "default: " ++ defaultCommentLiteral F variant d]
      | none => []
    let trailing := own ++ dflt
    indent.text ++ ascii " | " ++ schemaToTS variant (indent.extend (ascii "   ")) ++
      (if trailing = [] then [] else ascii " // " ++ joinStrings (ascii " ") trailing) ++
      variantLines propDesc indent (i + 1) rest
termination_by _ vs => 3 * sizeOf vs
decreasing_by
  all_goals simp_wf
  omega

end

mutual

-- `json.Unmarshal` into `any` succeeds on a document whose number literals are all finite `float64`s.
def decodable : Json → Bool
  | .number literal => F.parses literal
  | .array items => decodableItems items
  | .object members => decodableMembers members
  | _ => true

def decodableItems : List Json → Bool
  | [] => true
  | v :: vs => decodable v && decodableItems vs

def decodableMembers : List (ByteString × Json) → Bool
  | [] => true
  | (_, v) :: rest => decodable v && decodableMembers rest

end

-- `renderSchemaObjectWithOrder`: the keys are `orderedKeys` and then the keys of `props` it misses, in `props`'
-- `range` order, or all keys of `props` sorted; `props` is the "properties" map `schema` decodes to.
def renderSchemaObjectWithOrder (schema : Json) (indent : Indent) (props : GoMap ByteString Json)
    (orderedKeys : List ByteString) : ByteString :=
  renderProperties F (objectMembers schema) indent (propertyLineKeys props orderedKeys)

-- What `writeToolsSection` writes between "(_:" and "\n}) => any;" for a tool whose `Parameters` are `doc`,
-- `props` being its decoded "properties" map; none where it writes "(_: any) => any" instead, because
-- `parsedParameters` fails or the schema is null.
def toolSchemaText (doc : Json) (props : GoMap ByteString Json) : Option ByteString :=
  match doc with
  | .null => none
  | _ =>
    if decodable F doc then
      let rootDesc := (getString doc (ascii "description")).getD []
      some ((if rootDesc = [] then ascii " \x7b" else ascii " // " ++ rootDesc ++ ascii "\n\x7b") ++
        renderSchemaObjectWithOrder F doc Indent.line props (orderedPropertyKeys doc))
    else none

theorem declaration_infix_propertyBlock (required : List ByteString) (indent : Indent) (key : ByteString)
    (val : Json) : declaration required indent key <:+: propertyBlock F required indent key val := by
  rw [propertyBlock]
  split
  · exact List.infix_append _ _ _
  · exact List.infix_append _ _ _

theorem declaration_infix_renderProperties (m : List (ByteString × Json)) (indent : Indent)
    {keys : List ByteString} {key : ByteString} (listed : key ∈ keys) :
    declaration (requiredNames (.object m)) indent key <:+: renderProperties F m indent keys := by
  obtain ⟨pre, post, rfl⟩ := List.append_of_mem listed
  rw [renderProperties, List.map_append, List.map_cons, List.flatten_append, List.flatten_cons]
  exact (declaration_infix_propertyBlock F _ _ _ _).trans (List.infix_append' _ _ _)

theorem object_of_mem_propertiesMembers {doc : Json} {key : ByteString}
    (named : key ∈ (propertiesMembers doc).map Prod.fst) : ∃ members, doc = .object members := by
  cases doc with
  | object members => exact ⟨members, rfl⟩
  | _ => exact absurd named (List.not_mem_nil _)

theorem toolSchemaText_object_declares {members : List (ByteString × Json)} {props : GoMap ByteString Json}
    (decodes : decodable F (.object members) = true) {key : ByteString} (mem : key ∈ props.keys) :
    ∃ text, toolSchemaText F (.object members) props = some text ∧
      declaration (requiredNames (.object members)) Indent.line key <:+: text := by
  simp only [toolSchemaText, decodes, if_true, Option.some.injEq, exists_eq_left']
  exact (declaration_infix_renderProperties F members Indent.line (mem_propertyLineKeys mem)).trans
    (List.suffix_append _ _).isInfix

theorem toolSchemaText_declares {doc : Json} {props : GoMap ByteString Json}
    (decoded : Decodes (propertiesMembers doc) props) (decodes : decodable F doc = true) {key : ByteString}
    (mem : key ∈ props.keys) :
    ∃ text, toolSchemaText F doc props = some text ∧ declaration (requiredNames doc) Indent.line key <:+: text := by
  obtain ⟨members, rfl⟩ := object_of_mem_propertiesMembers (mem_names_of_decodes decoded mem)
  exact toolSchemaText_object_declares F decodes mem

def literalFloats : FloatFormat := ⟨fun _ => true, id⟩

-- {"type": "object", "properties": {"city": {"type": "string"}, "days": {"type": "integer"}}, "required": ["city"]}
def weatherSchema : Json :=
  .object [(ascii "type", .string (ascii "object")),
    (ascii "properties", .object [(ascii "city", .object [(ascii "type", .string (ascii "string"))]),
      (ascii "days", .object [(ascii "type", .string (ascii "integer"))])]),
    (ascii "required", .array [.string (ascii "city")])]

def weatherProps : GoMap ByteString Json := ⟨propertiesMembers weatherSchema, by decide⟩

theorem toolSchemaText_declares_weather :
    Decodes (propertiesMembers weatherSchema) weatherProps ∧ decodable literalFloats weatherSchema = true ∧
      ascii "days" ∈ weatherProps.keys ∧
      ∃ text, toolSchemaText literalFloats weatherSchema weatherProps = some text ∧
        declaration (requiredNames weatherSchema) Indent.line (ascii "days") <:+: text :=
  have decoded : Decodes (propertiesMembers weatherSchema) weatherProps := decodes_of_perm (by decide) (.refl _)
  have decodes : decodable literalFloats weatherSchema = true := by decide
  have mem : ascii "days" ∈ weatherProps.keys := by decide
  ⟨decoded, decodes, mem, toolSchemaText_declares literalFloats decoded decodes mem⟩

theorem perm_eq_of_length_le_one {l l' : List ByteString} (perm : l.Perm l') (short : l.length ≤ 1) : l = l' := by
  match l, short with
  | [], _ => exact (List.perm_nil.mp perm.symm).symm
  | [_], _ => exact (List.perm_singleton.mp perm.symm).symm

theorem propertyLineKeys_range_free {members : List (ByteString × Json)} {props props' : GoMap ByteString Json}
    {orderedKeys : List ByteString} (decoded : Decodes members props) (decoded' : Decodes members props')
    (missing : 0 < orderedKeys.length → (props.keys.filter (· ∉ orderedKeys)).length ≤ 1) :
    propertyLineKeys props orderedKeys = propertyLineKeys props' orderedKeys := by
  have keys : props.keys.Perm props'.keys := (entries_perm_of_decodes decoded decoded').map Prod.fst
  unfold propertyLineKeys
  split_ifs with cached
  · rw [perm_eq_of_length_le_one (keys.filter _) (missing cached)]
  · exact sortStrings_perm keys

theorem toolSchemaText_range_free {doc : Json} {props props' : GoMap ByteString Json}
    (decoded : Decodes (propertiesMembers doc) props) (decoded' : Decodes (propertiesMembers doc) props')
    (missing : 0 < (orderedPropertyKeys doc).length →
      (props.keys.filter (· ∉ orderedPropertyKeys doc)).length ≤ 1) :
    toolSchemaText F doc props = toolSchemaText F doc props' := by
  simp only [toolSchemaText, renderSchemaObjectWithOrder, propertyLineKeys_range_free decoded decoded' missing]

def weatherPropsSwapped : GoMap ByteString Json := ⟨(propertiesMembers weatherSchema).reverse, by decide⟩

theorem toolSchemaText_range_free_weather :
    Decodes (propertiesMembers weatherSchema) weatherProps ∧
      Decodes (propertiesMembers weatherSchema) weatherPropsSwapped ∧
      (0 < (orderedPropertyKeys weatherSchema).length →
        (weatherProps.keys.filter (· ∉ orderedPropertyKeys weatherSchema)).length ≤ 1) ∧
      toolSchemaText literalFloats weatherSchema weatherProps =
        toolSchemaText literalFloats weatherSchema weatherPropsSwapped :=
  have decoded : Decodes (propertiesMembers weatherSchema) weatherProps := decodes_of_perm (by decide) (.refl _)
  have decoded' : Decodes (propertiesMembers weatherSchema) weatherPropsSwapped :=
    decodes_of_perm (by decide) (List.reverse_perm _)
  have missing : 0 < (orderedPropertyKeys weatherSchema).length →
      (weatherProps.keys.filter (· ∉ orderedPropertyKeys weatherSchema)).length ≤ 1 := by decide
  ⟨decoded, decoded', missing, toolSchemaText_range_free literalFloats decoded decoded' missing⟩

end Text

end ToolSchema

end Harmony
