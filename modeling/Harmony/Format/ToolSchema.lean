import Harmony.Format.Render

set_option autoImplicit false

namespace Harmony

namespace ToolSchema

-- A JSON document as `json.Decoder` reads it: object members keep their order and their repeated names.
-- Whitespace and escapes belong to the lexer, which is not modelled.
inductive Json where
  | null
  | bool (b : Bool)
  | number (literal : ByteString)
  | string (s : ByteString)
  | array (items : List Json)
  | object (members : List (ByteString × Json))

-- `orderedPropertyKeys` on a document that parses: the member names of the first "properties" member, when
-- it is an object, up to the first empty name.
def orderedPropertyKeys : Json → List ByteString
  | .object members =>
    match members.find? (·.1 = ascii "properties") with
    | some (_, .object props) => (props.map Prod.fst).takeWhile (· ≠ [])
    | _ => []
  | _ => []

-- `json.Unmarshal` decodes an object into a `map[string]any` in which the last member of each name wins, and
-- `range` may visit that map's entries in any order: `Decodes members m` says `m`, read in its entries'
-- order, is one such map.
def Decodes (members : List (ByteString × Json)) (m : GoMap ByteString Json) : Prop :=
  ∀ k, m.get? k = assignLast members Prod.fst Prod.snd k

-- `props, _ := m["properties"].(map[string]any)`, before decoding: the members of the properties object the
-- decoded schema holds, none when it holds no object there.
def propertiesMembers : Json → List (ByteString × Json)
  | .object members =>
    match assignLast members Prod.fst Prod.snd (ascii "properties") with
    | some (.object props) => props
    | _ => []
  | _ => []

-- The `keys` of `renderSchemaObjectWithOrder`, one property line each: the cached order, then the keys of
-- `props` it misses, in `range` order; the sorted keys when the cached order is empty.
def propertyLineKeys (props : GoMap ByteString Json) (orderedKeys : List ByteString) : List ByteString :=
  if orderedKeys.length > 0 then orderedKeys ++ props.keys.filter (· ∉ orderedKeys)
  else sortStrings props.keys

section Decoded

variable {members : List (ByteString × Json)} {props : GoMap ByteString Json}

theorem mem_names_of_decodes (decoded : Decodes members props) {k : ByteString} (mem : k ∈ props.keys) :
    k ∈ members.map Prod.fst := by
  obtain ⟨⟨k, v⟩, stored, rfl⟩ := List.mem_map.mp mem
  obtain ⟨e, listed, named, -⟩ := assignLast_sound ((decoded k).symm.trans (props.get?_of_mem stored))
  exact List.mem_map.mpr ⟨e, listed, named⟩

theorem mem_keys_of_decodes (decoded : Decodes members props) {k : ByteString} (named : k ∈ members.map Prod.fst) :
    k ∈ props.keys := by
  obtain ⟨v, found⟩ := Option.isSome_iff_exists.mp (assignLast_isSome (List.mem_map.mp named))
  exact props.mem_keys_iff.mpr ⟨v, (decoded k).trans found⟩

theorem decodes_of_perm (distinct : (members.map Prod.fst).Nodup) (perm : props.entries.Perm members) :
    Decodes members props := by
  intro k
  by_cases listed : ∃ e ∈ members, e.1 = k
  · obtain ⟨e, mem, rfl⟩ := listed
    rw [(assign_of_mem distinct mem).1]
    exact props.get?_of_mem (perm.mem_iff.mpr mem)
  · push_neg at listed
    rw [assignLast_of_absent listed, props.get?_eq_none]
    exact fun mem => by
      obtain ⟨e, mem, same⟩ := List.mem_map.mp (perm.map Prod.fst |>.mem_iff.mp mem)
      exact listed e mem same

theorem entries_perm_of_decodes {props' : GoMap ByteString Json} (decoded : Decodes members props)
    (decoded' : Decodes members props') : props.entries.Perm props'.entries :=
  GoMap.entries_perm fun k => (decoded k).trans (decoded' k).symm

end Decoded

section Lines

variable {props : GoMap ByteString Json} {orderedKeys : List ByteString}

theorem mem_propertyLineKeys {k : ByteString} (mem : k ∈ props.keys) : k ∈ propertyLineKeys props orderedKeys := by
  unfold propertyLineKeys
  split_ifs
  · by_cases cached : k ∈ orderedKeys
    · exact List.mem_append_left _ cached
    · exact List.mem_append_right _ (List.mem_filter.mpr ⟨mem, by simpa using cached⟩)
  · exact (List.mergeSort_perm _ _).mem_iff.mpr mem

theorem propertyLineKeys_of_covered (cached : 0 < orderedKeys.length) (covered : ∀ k ∈ props.keys, k ∈ orderedKeys) :
    propertyLineKeys props orderedKeys = orderedKeys := by
  rw [propertyLineKeys, if_pos cached, List.filter_eq_nil_iff.mpr (by simpa using covered), List.append_nil]

end Lines

section Schema

variable {members ps : List (ByteString × Json)}

theorem orderedPropertyKeys_of_single (single : members.filter (·.1 = ascii "properties") =
      [(ascii "properties", .object ps)]) (named : ∀ p ∈ ps, p.1 ≠ []) :
    orderedPropertyKeys (.object members) = ps.map Prod.fst := by
  rw [orderedPropertyKeys, ← List.filter_head?, single]
  simpa [List.takeWhile_eq_self_iff] using named

theorem propertiesMembers_of_single (single : members.filter (·.1 = ascii "properties") =
      [(ascii "properties", .object ps)]) :
    propertiesMembers (.object members) = ps := by
  rw [propertiesMembers, ← assignLast_filter, single]
  rfl

theorem propertyLineKeys_of_named (single : members.filter (·.1 = ascii "properties") =
      [(ascii "properties", .object ps)]) (named : ∀ p ∈ ps, p.1 ≠ [])
    {props : GoMap ByteString Json} (decoded : Decodes (propertiesMembers (.object members)) props) :
    propertyLineKeys props (orderedPropertyKeys (.object members)) = ps.map Prod.fst := by
  rw [propertiesMembers_of_single single] at decoded
  rw [orderedPropertyKeys_of_single single named]
  cases ps with
  | nil =>
    have empty : props.keys = [] := List.eq_nil_iff_forall_not_mem.mpr fun k mem =>
      List.not_mem_nil k (mem_names_of_decodes decoded mem)
    rw [propertyLineKeys, if_neg (by simp), empty, sortStrings, List.mergeSort_nil, List.map_nil]
  | cons p rest =>
    exact propertyLineKeys_of_covered (by simp) fun k mem => mem_names_of_decodes decoded mem

end Schema

-- {"type": "object", "properties": {"b": {}, "a": {}}}, and a `range` over its decoded properties that visits
-- "a" first.
def twoKeyProperties : List (ByteString × Json) := [(ascii "b", .object []), (ascii "a", .object [])]

def twoKeyMembers : List (ByteString × Json) :=
  [(ascii "type", .string (ascii "object")), (ascii "properties", .object twoKeyProperties)]

def twoKeyRange : GoMap ByteString Json := ⟨[(ascii "a", .object []), (ascii "b", .object [])], by decide⟩

theorem propertyLineKeys_of_named_twoKey :
    twoKeyMembers.filter (·.1 = ascii "properties") = [(ascii "properties", .object twoKeyProperties)] ∧
      (∀ p ∈ twoKeyProperties, p.1 ≠ []) ∧ Decodes (propertiesMembers (.object twoKeyMembers)) twoKeyRange ∧
      propertyLineKeys twoKeyRange (orderedPropertyKeys (.object twoKeyMembers)) = [ascii "b", ascii "a"] :=
  have single : twoKeyMembers.filter (·.1 = ascii "properties") = [(ascii "properties", .object twoKeyProperties)] :=
    rfl
  have named : ∀ p ∈ twoKeyProperties, p.1 ≠ [] := by decide
  have decoded : Decodes (propertiesMembers (.object twoKeyMembers)) twoKeyRange :=
    decodes_of_perm (by decide) (.swap _ _ _)
  ⟨single, named, decoded, propertyLineKeys_of_named single named decoded⟩

-- {"properties": {"a": {}, "": {}, "b": {}}}
def emptyKeySchema : Json :=
  .object [(ascii "properties", .object [(ascii "a", .object []), (ascii "", .object []), (ascii "b", .object [])])]

def emptyKeyRange : GoMap ByteString Json :=
  ⟨[(ascii "a", .object []), (ascii "", .object []), (ascii "b", .object [])], by decide⟩

def emptyKeyRangeSwapped : GoMap ByteString Json :=
  ⟨[(ascii "a", .object []), (ascii "b", .object []), (ascii "", .object [])], by decide⟩

-- {"properties": {"a": {}, "a": {}}}
def repeatedKeySchema : Json :=
  .object [(ascii "properties", .object [(ascii "a", .object []), (ascii "a", .object [])])]

-- {"properties": {"a": {}}, "properties": {"b": {}}}
def repeatedPropertiesSchema : Json :=
  .object [(ascii "properties", .object [(ascii "a", .object [])]), (ascii "properties", .object [(ascii "b", .object [])])]

theorem propertyLineKeys_unstable :
    (Decodes (propertiesMembers emptyKeySchema) emptyKeyRange ∧
      Decodes (propertiesMembers emptyKeySchema) emptyKeyRangeSwapped ∧
      propertyLineKeys emptyKeyRange (orderedPropertyKeys emptyKeySchema) = [ascii "a", ascii "", ascii "b"] ∧
      propertyLineKeys emptyKeyRangeSwapped (orderedPropertyKeys emptyKeySchema) = [ascii "a", ascii "b", ascii ""]) ∧
    (∀ props, Decodes (propertiesMembers repeatedKeySchema) props →
      propertyLineKeys props (orderedPropertyKeys repeatedKeySchema) = [ascii "a", ascii "a"]) ∧
    (∀ props, Decodes (propertiesMembers repeatedPropertiesSchema) props →
      propertyLineKeys props (orderedPropertyKeys repeatedPropertiesSchema) = [ascii "a", ascii "b"] ∧
        ascii "a" ∉ props.keys) := by
  refine ⟨⟨decodes_of_perm (by decide) (.refl _), decodes_of_perm (by decide) (.cons _ (.swap _ _ _)), by decide,
    by decide⟩, fun props decoded => ?_, fun props decoded => ?_⟩
  · exact propertyLineKeys_of_covered (by decide) fun k mem => mem_names_of_decodes decoded mem
  · have reference : Decodes (propertiesMembers repeatedPropertiesSchema) ⟨[(ascii "b", .object [])], by decide⟩ :=
      decodes_of_perm (by decide) (.refl _)
    have keys : props.keys = [ascii "b"] :=
      List.perm_singleton.mp ((entries_perm_of_decodes decoded reference).map Prod.fst)
    rw [propertyLineKeys, keys]
    decide

section Comments

theorem splitOn_line {line : ByteString} (clean : 0x0A ∉ line) (rest : ByteString) :
    (line ++ 0x0A :: rest).splitOn 0x0A = line :: rest.splitOn 0x0A :=
  List.splitOnP_first _ _ (fun x mem newline => clean (by rwa [← beq_iff_eq.mp newline])) _ (by decide) _

theorem splitOn_clean {line : ByteString} (clean : 0x0A ∉ line) : line.splitOn 0x0A = [line] :=
  List.splitOnP_eq_single _ _ fun x mem newline => clean (by rwa [← beq_iff_eq.mp newline])

theorem writeCommentLines_splitOn (fuel : Nat) (rest : ByteString) (enough : rest.length < fuel) :
    (writeCommentLines fuel rest).splitOn 0x0A = (rest.splitOn 0x0A).map (ascii "// " ++ ·) ++ [[]] := by
  induction fuel generalizing rest with
  | zero => omega
  | succ fuel ih =>
    have opening : 0x0A ∉ ascii "// " := by decide
    have newline : ascii "\n" = [0x0A] := rfl
    rw [writeCommentLines]
    cases found : rest.findIdx? (· == 0x0A) with
    | none =>
      have clean : 0x0A ∉ rest := fun mem => by simpa using List.findIdx?_eq_none_iff.mp found _ mem
      rw [show ascii "// " ++ rest ++ ascii "\n" = (ascii "// " ++ rest) ++ 0x0A :: [] by rw [newline],
        splitOn_line (by simp [opening, clean]), splitOn_clean clean]
      rfl
    | some i =>
      obtain ⟨inside, atNewline, before⟩ := List.findIdx?_eq_some_iff_getElem.mp found
      have clean : 0x0A ∉ rest.take i := fun mem => by
        obtain ⟨j, within, same⟩ := List.getElem_of_mem mem
        simp only [List.length_take] at within
        have := before j (by omega)
        simp_all [List.getElem_take]
      have split : rest = rest.take i ++ 0x0A :: rest.drop (i + 1) := by
        conv_lhs => rw [← List.take_append_drop i rest, List.drop_eq_getElem_cons inside]
        simp_all
      dsimp only
      rw [show ascii "// " ++ rest.take i ++ ascii "\n" ++ writeCommentLines fuel (rest.drop (i + 1)) =
          (ascii "// " ++ rest.take i) ++ 0x0A :: writeCommentLines fuel (rest.drop (i + 1)) by simp [newline],
        splitOn_line (by simp [opening, clean]), ih _ (by simp; omega)]
      conv_rhs => rw [split, splitOn_line clean]
      rfl

theorem commentLines_lines (text : ByteString) :
    (commentLines text).splitOn 0x0A = (text.splitOn 0x0A).map (ascii "// " ++ ·) ++ [[]] ∧
      [0x0A].intercalate (((commentLines text).splitOn 0x0A).dropLast.map (List.drop 3)) = text := by
  have lines := writeCommentLines_splitOn (text.length + 1) text (Nat.lt_succ_self _)
  refine ⟨lines, ?_⟩
  have uncomment : (List.drop 3 ∘ (ascii "// " ++ ·)) = id := funext fun l => List.drop_left' rfl
  rw [commentLines, lines, List.dropLast_concat, List.map_map, uncomment, List.map_id, List.intercalate_splitOn]

end Comments

end ToolSchema

end Harmony
