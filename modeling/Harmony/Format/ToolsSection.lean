import Harmony.Format.MessageJson
import Harmony.Format.SchemaText
import Harmony.Format.MapOrder
import Harmony.Format.RenderLaws

set_option autoImplicit false

namespace Harmony

open ToolSchema

namespace GoMap

variable {κ ν : Type} [DecidableEq κ]

theorem get?_insert (m : GoMap κ ν) (k : κ) (v : ν) (k' : κ) :
    (m.insert k v).get? k' = if k = k' then some v else m.get? k' := by
  unfold get? insert
  split_ifs with same
  · subst same
    rw [List.find?_append, List.find?_eq_none.mpr (by simp)]
    simp
  · have keep : (fun e : κ × ν => !decide (e.1 = k) && decide (e.1 = k')) = fun e => decide (e.1 = k') := by
      funext e
      by_cases here : e.1 = k' <;> simp [here, Ne.symm same]
    simp [List.find?_append, List.find?_filter, keep, same]

-- `json.Unmarshal` of an object into a map: each member stored in turn, so the last of a name wins.
def ofMembers (members : List (κ × ν)) : GoMap κ ν := members.foldl (fun m e => m.insert e.1 e.2) empty

theorem get?_foldl_insert (k : κ) :
    ∀ (members : List (κ × ν)) (acc : GoMap κ ν), (members.foldl (fun m e => m.insert e.1 e.2) acc).get? k =
      members.foldl (fun o e => if e.1 = k then some e.2 else o) (acc.get? k)
  | [], _ => rfl
  | e :: rest, acc => by rw [List.foldl_cons, get?_foldl_insert k rest, get?_insert, List.foldl_cons]

theorem get?_ofMembers (members : List (κ × ν)) (k : κ) :
    (ofMembers members).get? k = assignLast members Prod.fst Prod.snd k :=
  get?_foldl_insert k members empty

end GoMap

-- One call's `range` order of every decoded "properties" map: each a map the schema's members decode to.
structure PropertiesDraw where
  props : Json → GoMap ByteString Json
  decodes : ∀ doc, Decodes (propertiesMembers doc) (props doc)

namespace PropertiesDraw

def stored : PropertiesDraw := ⟨fun doc => GoMap.ofMembers (propertiesMembers doc), fun _ => GoMap.get?_ofMembers _⟩

end PropertiesDraw

-- What `writeToolsSection` writes for a tool's raw parameters: `json.Unmarshal` reads the bytes the text
-- layer checks, and `toolSchemaText` writes the schema with this call's `range` order of its properties.
def parametersSchemaText (lib : JsonLib) (F : FloatFormat) (draw : PropertiesDraw) (p : ByteString) :
    Option ByteString :=
  match lib.rawTree p with
  | .ok doc => toolSchemaText F doc (draw.props doc)
  | .error _ => none

def renderEnvOf (lib : JsonLib) (F : FloatFormat) (draw : PropertiesDraw) (parallel : Bool)
    (toLower : ByteString → ByteString) : RenderEnv :=
  ⟨parallel, toLower, parametersSchemaText lib F draw⟩

def weatherText : ByteString :=
  ascii ("\x7b\"type\":\"object\",\"properties\":\x7b\"city\":\x7b\"type\":\"string\"\x7d," ++
    "\"days\":\x7b\"type\":\"integer\"\x7d\x7d,\"required\":[\"city\"]\x7d")

-- A text layer that reads `weatherText` as `weatherSchema` and keeps any other text as a string.
def weatherLib : JsonLib where
  toUpper := id
  rawTree p := if p = weatherText then .ok weatherSchema
    else if p = [] then .error (ascii "unexpected end of JSON input") else .ok (.string p)
  rawText v := match v with
    | .string p => p
    | .object _ => weatherText
    | _ => ascii "null"
  keepsInnerField := true

-- The tools map a content item's text is written from.
def Content.toolsMap? (c : Content) : Option (GoMap ByteString ToolNamespaceConfig) :=
  if c.type = contentSystem then c.system.map (·.tools)
  else if c.type = contentDeveloper then c.developer.map (·.tools)
  else none

theorem trimRightNewlines_append (s : ByteString) {t : ByteString} (solid : ∃ c ∈ t, c ≠ 0x0A) :
    trimRightNewlines (s ++ t) = s ++ trimRightNewlines t := by
  obtain ⟨c, mem, solid⟩ := solid
  have kept : (t.reverse.dropWhile (· == 0x0A)).isEmpty = false := by
    simp only [List.isEmpty_eq_false, ne_eq, List.dropWhile_eq_nil_iff, List.mem_reverse, beq_iff_eq, not_forall]
    exact ⟨c, mem, solid⟩
  simp only [trimRightNewlines, List.reverse_append, List.dropWhile_append, kept, if_false, Bool.false_eq_true,
    List.reverse_reverse]

theorem infix_trimRightNewlines {x t s : ByteString} (inner : x ++ t <:+: s) (solid : ∃ c ∈ t, c ≠ 0x0A) :
    x <:+: trimRightNewlines s := by
  obtain ⟨p, q, rfl⟩ := inner
  obtain ⟨c, mem, solid⟩ := solid
  rw [List.append_assoc, List.append_assoc, ← List.append_assoc p,
    trimRightNewlines_append _ ⟨c, List.mem_append_left _ mem, solid⟩]
  exact (List.suffix_append _ _).isInfix.trans (List.prefix_append _ _).isInfix

theorem part_suffix_addSection (body part : ByteString) : part <:+ addSection body part := List.suffix_append _ _

theorem body_prefix_addSection (body part : ByteString) : body <+: addSection body part := by
  unfold addSection
  split
  · exact (List.prefix_append _ _).trans (List.prefix_append _ _)
  · exact List.prefix_append _ _

theorem infix_ite_addSection {x body part : ByteString} (p : Prop) [Decidable p] (inner : x <:+: body) :
    x <:+: if p then addSection body part else body := by
  split
  · exact inner.trans (body_prefix_addSection _ _).isInfix
  · exact inner

section Text

variable (env : RenderEnv)

theorem schemaText_infix_toolText {tool : ToolDescription} (nonempty : tool.parameters ≠ []) {text : ByteString}
    (found : env.schemaText tool.parameters = some text) : text <:+: toolText env tool := by
  simp only [toolText, nonempty, if_false, found]
  exact (List.infix_append _ _ _).trans (List.suffix_append _ _).isInfix

theorem toolText_infix_namespaceText {ns : ToolNamespaceConfig} {tool : ToolDescription} (provided : tool ∈ ns.tools) :
    toolText env tool <:+: trimRightNewlines (namespaceText env ns) := by
  have tail : (ns.tools.map (toolText env)).flatten ++ (ascii "\x7d // namespace " ++ ns.name) <:+
      namespaceText env ns := by
    rw [namespaceText, if_pos (List.ne_nil_of_mem provided),
      List.append_assoc (ascii "namespace " ++ ns.name ++ ascii " \x7b\n\n" ++ (ns.tools.map (toolText env)).flatten),
      List.append_assoc (ascii "namespace " ++ ns.name ++ ascii " \x7b\n\n")]
    exact (List.suffix_append _ _).trans (List.suffix_append _ _)
  exact (List.infix_of_mem_flatten (List.mem_map_of_mem _ provided)).trans
    (infix_trimRightNewlines tail.isInfix ⟨0x7D, List.mem_append_left _ (by decide), by decide⟩)

theorem namespaceText_infix_writeToolsSection {tools : GoMap ByteString ToolNamespaceConfig} {nsName : ByteString}
    {ns : ToolNamespaceConfig} (listed : (nsName, ns) ∈ tools.entries) :
    trimRightNewlines (namespaceText env ns) <:+: writeToolsSection env tools := by
  have sorted : nsName ∈ sortStrings tools.keys :=
    (List.mergeSort_perm _ _).mem_iff.mpr (List.mem_map_of_mem Prod.fst listed)
  have piece := List.infix_of_mem_flatten (List.mem_map_of_mem (fun n => ascii "\n\n" ++
    trimRightNewlines (namespaceText env ((tools.get? n).getD ⟨[], none, []⟩))) sorted)
  simp only [tools.get?_of_mem listed, Option.getD_some] at piece
  rw [writeToolsSection, if_neg (List.ne_nil_of_mem listed)]
  exact (List.suffix_append _ _).isInfix.trans (piece.trans (List.suffix_append _ _).isInfix)

theorem writeToolsSection_infix_itemText (opts : RenderOptions) {c : Content}
    {tools : GoMap ByteString ToolNamespaceConfig} (typed : c.toolsMap? = some tools) (declared : tools.entries ≠ []) :
    ∃ text, itemText env opts c = .ok text ∧ writeToolsSection env tools <:+: text := by
  have systemNotText : contentSystem ≠ contentText := by decide
  have developerNotText : contentDeveloper ≠ contentText := by decide
  have developerNotSystem : contentDeveloper ≠ contentSystem := by decide
  unfold Content.toolsMap? at typed
  split_ifs at typed with system developer
  · obtain ⟨sys, found, rfl⟩ := Option.map_eq_some'.mp typed
    simp only [itemText, system, systemNotText, found, if_false, if_true, Except.ok.injEq, exists_eq_left',
      systemContentText, ne_eq, declared, not_false_eq_true]
    exact infix_ite_addSection _ (part_suffix_addSection _ _).isInfix
  · obtain ⟨dev, found, rfl⟩ := Option.map_eq_some'.mp typed
    simp only [itemText, developer, developerNotText, developerNotSystem, found, if_false, if_true, Except.ok.injEq,
      exists_eq_left', developerContentText, ne_eq, declared, not_false_eq_true]
    exact (List.suffix_append _ _).isInfix

end Text

theorem itemText_declares (lib : JsonLib) (F : FloatFormat) (draw : PropertiesDraw) (parallel : Bool)
    (toLower : ByteString → ByteString) (opts : RenderOptions) {c : Content}
    {tools : GoMap ByteString ToolNamespaceConfig} (typed : c.toolsMap? = some tools) {nsName : ByteString}
    {ns : ToolNamespaceConfig} (listed : (nsName, ns) ∈ tools.entries) {tool : ToolDescription}
    (provided : tool ∈ ns.tools) (nonempty : tool.parameters ≠ []) {doc : Json}
    (parsed : lib.rawTree tool.parameters = .ok doc) (decodes : decodable F doc = true) {key : ByteString}
    (named : key ∈ (propertiesMembers doc).map Prod.fst) :
    ∃ text, itemText (renderEnvOf lib F draw parallel toLower) opts c = .ok text ∧
      declaration (requiredNames doc) Indent.line key <:+: text := by
  let env := renderEnvOf lib F draw parallel toLower
  obtain ⟨members, rfl⟩ := object_of_mem_propertiesMembers named
  obtain ⟨schema, written, declared⟩ :=
    toolSchemaText_object_declares F decodes (mem_keys_of_decodes (draw.decodes _) named)
  have found : env.schemaText tool.parameters = some schema := by
    simp only [env, renderEnvOf, parametersSchemaText, parsed, written]
  obtain ⟨text, rendered, inSection⟩ := writeToolsSection_infix_itemText env opts typed (List.ne_nil_of_mem listed)
  refine ⟨text, rendered, ?_⟩
  calc declaration (requiredNames (.object members)) Indent.line key
    _ <:+: schema := declared
    _ <:+: toolText env tool := schemaText_infix_toolText env nonempty found
    _ <:+: trimRightNewlines (namespaceText env ns) := toolText_infix_namespaceText env provided
    _ <:+: writeToolsSection env tools := namespaceText_infix_writeToolsSection env listed
    _ <:+: text := inSection

def weatherTool : ToolDescription := ⟨ascii "get_weather", ascii "Gets the forecast.", weatherText⟩

def weatherNamespace : ToolNamespaceConfig := ⟨ascii "functions", none, [weatherTool]⟩

def weatherTools : GoMap ByteString ToolNamespaceConfig := ⟨[(ascii "functions", weatherNamespace)], by decide⟩

def weatherDeveloper : Content := ⟨contentDeveloper, [], none, some ⟨none, weatherTools⟩⟩

theorem itemText_declares_weather :
    weatherDeveloper.toolsMap? = some weatherTools ∧ (ascii "functions", weatherNamespace) ∈ weatherTools.entries ∧
      weatherTool ∈ weatherNamespace.tools ∧ weatherTool.parameters ≠ [] ∧
      weatherLib.rawTree weatherTool.parameters = .ok weatherSchema ∧ decodable literalFloats weatherSchema = true ∧
      ascii "days" ∈ (propertiesMembers weatherSchema).map Prod.fst ∧
      ∃ text, itemText (renderEnvOf weatherLib literalFloats .stored false id) ⟨false⟩ weatherDeveloper = .ok text ∧
        declaration (requiredNames weatherSchema) Indent.line (ascii "days") <:+: text :=
  have typed : weatherDeveloper.toolsMap? = some weatherTools := rfl
  have listed : (ascii "functions", weatherNamespace) ∈ weatherTools.entries := List.mem_singleton_self _
  have provided : weatherTool ∈ weatherNamespace.tools := List.mem_singleton_self _
  have nonempty : weatherTool.parameters ≠ [] := by decide
  have parsed : weatherLib.rawTree weatherTool.parameters = .ok weatherSchema := by simp [weatherLib, weatherTool]
  have decodes : decodable literalFloats weatherSchema = true := by decide
  have named : ascii "days" ∈ (propertiesMembers weatherSchema).map Prod.fst := by decide
  ⟨typed, listed, provided, nonempty, parsed, decodes, named, itemText_declares weatherLib literalFloats .stored false id
    ⟨false⟩ typed listed provided nonempty parsed decodes named⟩

end Harmony
