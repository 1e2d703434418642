import Harmony.Format.ParseRender
import Harmony.Runtime.StringsLaws

set_option autoImplicit false

namespace Harmony

open Strings Utf8 StreamParser

-- What the round trip asks of a name, a recipient, a channel or a content type: no rune `unicode.IsSpace`
-- takes, no '<' and no "to=".
def plainWord (U : UnicodeTables) (w : ByteString) : Bool :=
  indexRune (isSpace U) w == none && !w.contains 0x3C && !contains w (ascii "to=")

-- A byte string whose last byte, if any, is ASCII: `range` reads a rune starting right after it.
def Cut (s : ByteString) : Prop := ∀ b ∈ s.getLast?, b < runeSelf

theorem cut_snoc (pre : ByteString) {b : UInt8} (small : b < runeSelf) : Cut (pre ++ [b]) := by
  intro c mem
  simp only [List.getLast?_append, List.getLast?_singleton, Option.mem_def] at mem
  cases mem
  exact small

section Words

variable {U : UnicodeTables} {w : ByteString} (plain : plainWord U w = true)
include plain

theorem plainWord_noSpace : indexRune (isSpace U) w = none := by
  simp only [plainWord, Bool.and_eq_true, beq_iff_eq] at plain
  exact plain.1.1

theorem plainWord_noAngle : (0x3C : UInt8) ∉ w := by
  simp [plainWord] at plain
  exact plain.1.2

theorem plainWord_noBlank : (0x20 : UInt8) ∉ w :=
  not_mem_of_indexRune_none _ w (plainWord_noSpace plain) (by decide) rfl

theorem plainWord_noTo : ¬ ascii "to=" <+: w := by
  intro hit
  simp only [plainWord, Bool.and_eq_true, Bool.not_eq_true', contains, index_at_start hit] at plain
  simp at plain

theorem plainWord_first (nonempty : w ≠ []) (t : ByteString) (cut : ∀ b ∈ t.head?, b < runeSelf) :
    isSpace U (decodeRuneInString (w ++ t)).1 = false :=
  isSpace_decodeRuneInString U w t nonempty (plainWord_noSpace plain) cut

theorem plainWord_last (nonempty : w ≠ []) (pre : ByteString) (cut : Cut pre) :
    isSpace U (decodeLastRuneInString (pre ++ w)).1 = false :=
  isSpace_decodeLastRuneInString U pre w cut nonempty (plainWord_noSpace plain)

end Words

-- A content type as the round trip carries it: a word, or `<|constrain|>` and a word.
def typeWord (U : UnicodeTables) (ct : ByteString) : Prop :=
  plainWord U ct = true ∨ ∃ rest, ct = constrainMarker ++ rest ∧ plainWord U rest = true

def roleWords : List Role := [roleUser, roleAssistant, roleSystem, roleDeveloper, roleTool]

-- What the round trip asks of a message.
structure Recoverable (U : UnicodeTables) (m : Message) : Prop where
  role : m.author.role ∈ roleWords
  texts : ∀ c ∈ m.content, c.type = contentText
  name : plainWord U m.author.name = true
  recipient : plainWord U m.recipient = true
  notAll : m.recipient ≠ ascii "all"
  channel : plainWord U m.channel = true
  contentType : typeWord U m.contentType
  toolName : m.author.role = roleTool →
    m.author.name ≠ [] ∧ ∀ r ∈ roleWords, m.author.name ≠ r ∧ hasPrefix m.author.name (r ++ ascii ":") = false
  bareType : m.recipient = [] → m.channel = [] →
    ∀ r ∈ [roleAssistant, roleUser, roleSystem, roleDeveloper], hasPrefix m.contentType r = false

def leadText (m : Message) : ByteString :=
  if m.author.role = roleTool then m.author.name
  else if m.author.name = [] then m.author.role else m.author.role ++ ascii ":" ++ m.author.name

def recipientText (m : Message) : ByteString := if needsRecipient m then ascii " to=" ++ m.recipient else []

def channelText (m : Message) : ByteString := if m.channel ≠ [] then channelMarker ++ m.channel else []

def typeText (m : Message) : ByteString := if m.contentType ≠ [] then ascii " " ++ m.contentType else []

def spacedChannel (m : Message) : ByteString := if m.channel ≠ [] then ascii " " ++ channelMarker ++ m.channel else []

def spacedType (m : Message) : ByteString :=
  if m.contentType ≠ [] then
    ascii " " ++ (if constrainMarker <+: m.contentType then ascii " " else []) ++ m.contentType
  else []

theorem headerText_eq (m : Message) :
    headerText m = leadText m ++ recipientText m ++ channelText m ++ typeText m := by
  unfold headerText headerPieces channelAndTypeText leadText recipientText channelText typeText
  split_ifs <;> simp_all

theorem channelMarker_eq : channelMarker = 0x3C :: ascii "|channel|>" := rfl

theorem constrainMarker_eq : constrainMarker = 0x3C :: ascii "|constrain|>" := rfl

theorem channelMarker_head : channelMarker.head? = some 0x3C := rfl

theorem constrainMarker_head : constrainMarker.head? = some 0x3C := rfl

theorem recipientMarker_head : (ascii " to=").head? = some 0x20 := rfl

theorem channelMarker_not_blank (s : ByteString) : channelMarker.isPrefixOf (0x20 :: s) = false := rfl

theorem channelMarker_not_constrain (s : ByteString) :
    channelMarker.isPrefixOf (0x3C :: (ascii "|constrain|>" ++ s)) = false := rfl

theorem recipientMarker_not_blank (s : ByteString) : (ascii " to=").isPrefixOf (0x20 :: 0x20 :: s) = false := rfl

theorem recipientMarker_not_channel (s : ByteString) :
    (ascii " to=").isPrefixOf (0x20 :: (channelMarker ++ s)) = false := rfl

theorem constrainMarker_not_blank (s : ByteString) : constrainMarker.isPrefixOf (0x20 :: s) = false := rfl

theorem constrainMarker_not_channel (s : ByteString) :
    constrainMarker.isPrefixOf (0x3C :: (ascii "|channel|>" ++ s)) = false := rfl

section TypeWord

variable {U : UnicodeTables} {ct : ByteString} (typed : typeWord U ct)
include typed

theorem typeWord_noBlank : (0x20 : UInt8) ∉ ct := by
  rcases typed with plain | ⟨rest, rfl, plain⟩
  · exact plainWord_noBlank plain
  · simpa [constrainMarker_eq] using ⟨by decide, plainWord_noBlank plain⟩

theorem typeWord_index_channel : index ct channelMarker = none := by
  rcases typed with plain | ⟨rest, rfl, plain⟩
  · exact index_of_not_mem channelMarker_head ct (plainWord_noAngle plain)
  · rw [constrainMarker_eq, List.cons_append,
      index_cons_of_mismatch (channelMarker_not_constrain rest),
      index_of_not_mem channelMarker_head _ (by simpa using ⟨by decide, plainWord_noAngle plain⟩)]
    rfl

theorem typeWord_replace_channel (new : ByteString) (fuel : Nat) :
    replaceAllFrom channelMarker new fuel ct = ct := by
  rcases typed with plain | ⟨rest, rfl, plain⟩
  · exact replaceAllFrom_of_not_mem channelMarker_head new ct (plainWord_noAngle plain) fuel
  · rw [constrainMarker_eq, List.cons_append]
    cases fuel with
    | zero => rfl
    | succ fuel =>
      rw [replaceAllFrom_cons_of_mismatch _ _ (channelMarker_not_constrain rest) fuel,
        replaceAllFrom_of_not_mem channelMarker_head _ _ (by simpa using ⟨by decide, plainWord_noAngle plain⟩)]

theorem typeWord_first (nonempty : ct ≠ []) (t : ByteString) (cut : ∀ b ∈ t.head?, b < runeSelf) :
    isSpace U (decodeRuneInString (ct ++ t)).1 = false := by
  rcases typed with plain | ⟨rest, rfl, plain⟩
  · exact plainWord_first plain nonempty t cut
  · rfl

theorem typeWord_noTo : ¬ ascii "to=" <+: ct := by
  rcases typed with plain | ⟨rest, rfl, plain⟩
  · exact plainWord_noTo plain
  · rintro ⟨tail, spelled⟩
    cases congrArg List.head? spelled

theorem typeWord_not_recipient : (ascii " to=").isPrefixOf (0x20 :: ct) = false :=
  Bool.eq_false_iff.mpr fun prefixed => typeWord_noTo typed (Iff.mp List.isPrefixOf_iff_prefix prefixed)

theorem typeWord_index_recipient : index ct (ascii " to=") = none :=
  index_of_not_mem recipientMarker_head ct (typeWord_noBlank typed)

theorem typeWord_last (nonempty : ct ≠ []) (pre : ByteString) (cut : Cut pre) :
    isSpace U (decodeLastRuneInString (pre ++ ct)).1 = false := by
  rcases typed with plain | ⟨rest, rfl, plain⟩
  · exact plainWord_last plain nonempty pre cut
  by_cases empty : rest = []
  · subst empty
    rw [List.append_nil]
    exact isSpace_decodeLastRuneInString U pre constrainMarker cut (by simp [constrainMarker_eq]) rfl
  · rw [← List.append_assoc, show constrainMarker = ascii "<|constrain|" ++ [0x3E] from rfl, ← List.append_assoc]
    exact plainWord_last plain empty _ (cut_snoc _ (by decide))

theorem typeWord_trim : trimSpace U ct = ct := by
  by_cases empty : ct = []
  · subst empty
    rfl
  have first := typeWord_first typed empty [] (by simp)
  have last := typeWord_last typed empty [] (fun _ mem => by cases mem)
  rw [List.append_nil] at first
  rw [List.nil_append] at last
  exact trimSpace_spaces U 0 ct (.inr first) (.inr last)

end TypeWord

def BlankHead (s : ByteString) : Prop := ∀ b ∈ s.head?, b = 0x20

theorem blankHead_append {s t : ByteString} (first : BlankHead s) (second : BlankHead t) : BlankHead (s ++ t) := by
  intro b mem
  rw [List.head?_append] at mem
  cases head : s.head? with
  | none => rw [head, Option.none_or] at mem; exact second b mem
  | some c =>
    simp only [head, Option.or, Option.mem_def, Option.some.injEq] at mem
    subst mem
    exact first _ head

theorem BlankHead.cut {s : ByteString} (blank : BlankHead s) : ∀ b ∈ s.head?, b < runeSelf :=
  fun b mem => (blank b mem) ▸ by decide

theorem blankHead_space (s : ByteString) : BlankHead (ascii " " ++ s) := by
  intro b mem
  cases mem
  rfl

theorem blankHead_nil : BlankHead [] := fun _ mem => by cases mem

theorem spacedChannel_blankHead (m : Message) : BlankHead (spacedChannel m) := by
  unfold spacedChannel
  split_ifs
  · rw [List.append_assoc]
    exact blankHead_space _
  · exact blankHead_nil

theorem spacedType_blankHead (m : Message) : BlankHead (spacedType m) := by
  unfold spacedType
  split_ifs <;> first | exact blankHead_nil | (rw [List.append_assoc]; exact blankHead_space _)

theorem roleWord_shape {r : Role} (mem : r ∈ roleWords) (U : UnicodeTables) :
    (0x3C : UInt8) ∉ r ∧ (0x20 : UInt8) ∉ r ∧ ∃ c rest, r = c :: rest ∧ c < runeSelf ∧ isSpace U c.toNat = false := by
  simp only [roleWords, List.mem_cons, List.mem_singleton, List.not_mem_nil, or_false] at mem
  rcases mem with rfl | rfl | rfl | rfl | rfl <;> exact ⟨by decide, by decide, _, _, rfl, by decide, rfl⟩

-- What `stripRecipient` leaves of the text after the lead: the channel and the content type.
def channelAndType (m : Message) : ByteString :=
  if m.channel ≠ [] then channelMarker ++ m.channel ++ spacedType m else m.contentType

-- What `splitLeadingToken` leaves after the lead.
def afterLead (m : Message) : ByteString :=
  if needsRecipient m then ascii "to=" ++ m.recipient ++ spacedChannel m ++ spacedType m else channelAndType m

def speakerRoles : List Role := [roleUser, roleAssistant, roleSystem, roleDeveloper]

theorem isRoleToken_other {lead r : ByteString} (nonempty : r ≠ []) (differ : lead.head? ≠ r.head?) :
    isRoleToken lead r = false := by
  obtain ⟨c, r, rfl⟩ := List.exists_cons_of_ne_nil nonempty
  cases lead with
  | nil => rfl
  | cons d lead =>
    have other : d ≠ c := fun same => differ (by simp [same])
    simp [isRoleToken, hasPrefix, List.isPrefixOf, other, Ne.symm other]

theorem speakerRoles_heads : ∀ a ∈ speakerRoles, ∀ b ∈ speakerRoles, a ≠ b → a.head? ≠ b.head? := by decide

theorem detectRoleAndAuthor_speaker (U : UnicodeTables) {r : Role} (listed : r ∈ speakerRoles)
    (name remainder : ByteString) :
    detectRoleAndAuthor U (if name = [] then r else r ++ ascii ":" ++ name) remainder = (r, name) := by
  have nonempty : ∀ r' ∈ speakerRoles, r' ≠ [] := by decide
  have heads : (if name = [] then r else r ++ ascii ":" ++ name).head? = r.head? := by
    obtain ⟨c, rest, spelled⟩ := List.exists_cons_of_ne_nil (nonempty r listed)
    split_ifs <;> simp [spelled]
  have key : ∀ r' ∈ speakerRoles, isRoleToken (if name = [] then r else r ++ ascii ":" ++ name) r' = decide (r' = r) := by
    intro r' mem
    by_cases same : r' = r
    · subst same
      split_ifs <;> simp [isRoleToken, hasPrefix, List.isPrefixOf_iff_prefix]
    · rw [isRoleToken_other (nonempty r' mem) (heads ▸ speakerRoles_heads r listed r' mem (Ne.symm same)),
        decide_eq_false same]
  have chain : (if decide (roleUser = r) = true then roleUser else if decide (roleAssistant = r) = true then roleAssistant
      else if decide (roleSystem = r) = true then roleSystem else if decide (roleDeveloper = r) = true then roleDeveloper
      else roleTool) = r := by
    simp only [speakerRoles, List.mem_cons, List.mem_singleton, List.not_mem_nil, or_false] at listed
    rcases listed with rfl | rfl | rfl | rfl <;> rfl
  have notTool : r ≠ roleTool := by
    intro same
    subst same
    exact absurd listed (by decide)
  unfold detectRoleAndAuthor
  simp only [speakerRoles] at key
  rw [key roleUser (by simp), key roleAssistant (by simp), key roleSystem (by simp), key roleDeveloper (by simp), chain]
  dsimp only
  rw [if_neg notTool]
  have colon : (ascii ":").length = 1 := rfl
  split_ifs with named prefixed prefixed
  · have longer := (Iff.mp List.isPrefixOf_iff_prefix prefixed).length_le
    simp [colon] at longer
  · rw [named]
  · simp [List.drop_append_eq_append_drop, colon]
  · simp [hasPrefix, List.isPrefixOf_iff_prefix] at prefixed

theorem detectRoleAndAuthor_tool (U : UnicodeTables) {name : ByteString} (nonempty : name ≠ [])
    (unclaimed : ∀ r ∈ roleWords, name ≠ r ∧ hasPrefix name (r ++ ascii ":") = false) (remainder : ByteString) :
    detectRoleAndAuthor U name remainder = (roleTool, name) := by
  have free : ∀ r ∈ roleWords, isRoleToken name r = false := by
    intro r mem
    obtain ⟨other, unprefixed⟩ := unclaimed r mem
    simp [isRoleToken, other, unprefixed]
  have tool := unclaimed roleTool (by simp [roleWords])
  simp only [roleWords] at free
  unfold detectRoleAndAuthor
  rw [free roleUser (by simp), free roleAssistant (by simp), free roleSystem (by simp), free roleDeveloper (by simp)]
  simp only [Bool.false_eq_true, if_false, if_true, show ascii "tool:" = roleTool ++ ascii ":" from rfl, tool.2,
    tool.1, nonempty, ne_eq, not_false_eq_true]

theorem stripRolePrefix_of_unprefixed {ss : ByteString}
    (unprefixed : ∀ r ∈ [roleAssistant, roleUser, roleSystem, roleDeveloper], hasPrefix ss r = false) :
    stripRolePrefix ss = ss := by
  unfold stripRolePrefix
  rw [List.find?_eq_none.mpr (fun r mem => by simp [unprefixed r mem])]

theorem stripChannels_of_index {ss : ByteString} (missing : index ss channelMarker = none) (U : UnicodeTables)
    (fuel : Nat) : stripChannels U fuel ss = ss := by
  cases fuel with
  | zero => rfl
  | succ fuel => simp [stripChannels, missing]

theorem bare_of_empty {m : Message} (empty : spacedChannel m ++ spacedType m = []) : m.channel = [] ∧ m.contentType = [] := by
  rw [List.append_eq_nil] at empty
  constructor
  · by_contra named
    simp [spacedChannel, named] at empty
  · by_contra typed
    have := empty.2
    simp only [spacedType, if_pos typed, List.append_eq_nil] at this
    exact absurd this.1.1 (by decide)

theorem spacedType_plain {m : Message} (unconstrained : ¬ constrainMarker <+: m.contentType) :
    spacedType m = typeText m := by
  simp [spacedType, typeText, unconstrained]

section Message

variable {U : UnicodeTables} {m : Message} (ok : Recoverable U m)
include ok

theorem lead_shape : (0x3C : UInt8) ∉ leadText m ∧ (0x20 : UInt8) ∉ leadText m := by
  obtain ⟨angle, blank, -⟩ := roleWord_shape ok.role U
  unfold leadText
  split_ifs
  · exact ⟨plainWord_noAngle ok.name, plainWord_noBlank ok.name⟩
  · exact ⟨angle, blank⟩
  · simp only [List.mem_append, not_or]
    exact ⟨⟨⟨angle, by decide⟩, plainWord_noAngle ok.name⟩, ⟨⟨blank, by decide⟩, plainWord_noBlank ok.name⟩⟩

theorem lead_first (t : ByteString) (cut : ∀ b ∈ t.head?, b < runeSelf) :
    isSpace U (decodeRuneInString (leadText m ++ t)).1 = false := by
  obtain ⟨-, -, c, rest, spelled, small, solid⟩ := roleWord_shape ok.role U
  unfold leadText
  split_ifs with tool
  · exact plainWord_first ok.name (ok.toolName tool).1 t cut
  all_goals simp only [spelled, List.cons_append, decodeRuneInString_ascii _ small, solid]

theorem recipientText_shape : (0x3C : UInt8) ∉ recipientText m ∧ BlankHead (recipientText m) := by
  unfold recipientText
  split_ifs
  · exact ⟨by simpa using ⟨by decide, plainWord_noAngle ok.recipient⟩, blankHead_space _⟩
  · exact ⟨List.not_mem_nil _, blankHead_nil⟩

theorem spacedChannel_last (named : m.channel ≠ []) (pre : ByteString) :
    isSpace U (decodeLastRuneInString (pre ++ spacedChannel m)).1 = false := by
  rw [spacedChannel, if_pos named, show channelMarker = ascii "<|channel|" ++ [0x3E] from rfl]
  simp only [← List.append_assoc]
  exact plainWord_last ok.channel named _ (cut_snoc _ (by decide))

theorem typeText_last (typed : m.contentType ≠ []) (pre : ByteString) :
    isSpace U (decodeLastRuneInString (pre ++ typeText m)).1 = false := by
  rw [typeText, if_pos typed, show ascii " " = [] ++ [0x20] from rfl]
  simp only [← List.append_assoc]
  exact typeWord_last ok.contentType typed _ (cut_snoc _ (by decide))

theorem spacedType_last (typed : m.contentType ≠ []) (pre : ByteString) :
    isSpace U (decodeLastRuneInString (pre ++ spacedType m)).1 = false := by
  rw [spacedType, if_pos typed]
  split_ifs
  · rw [show ascii " " = [] ++ [0x20] from rfl]
    simp only [← List.append_assoc]
    exact typeWord_last ok.contentType typed _ (cut_snoc _ (by decide))
  · rw [show ascii " " = [] ++ [0x20] from rfl]
    simp only [← List.append_assoc, List.append_nil]
    exact typeWord_last ok.contentType typed _ (cut_snoc _ (by decide))

theorem typeText_index_channel : index (typeText m) channelMarker = none := by
  unfold typeText
  split_ifs
  · rw [show ascii " " ++ m.contentType = 0x20 :: m.contentType from rfl,
      index_cons_of_mismatch (channelMarker_not_blank _),
      typeWord_index_channel ok.contentType]
    rfl
  · rfl

theorem typeText_replace_channel (new : ByteString) (fuel : Nat) :
    replaceAllFrom channelMarker new fuel (typeText m) = typeText m := by
  unfold typeText
  split_ifs
  · cases fuel with
    | zero => rfl
    | succ fuel =>
      rw [show ascii " " ++ m.contentType = 0x20 :: m.contentType from rfl,
        replaceAllFrom_cons_of_mismatch _ _ (channelMarker_not_blank _),
        typeWord_replace_channel ok.contentType]
  · cases fuel <;> rfl

theorem front_noAngle : (0x3C : UInt8) ∉ leadText m ++ recipientText m := by
  simp [(lead_shape ok).1, (recipientText_shape ok).1]

theorem trimSpace_lead (X : ByteString) (blank : BlankHead X)
    (last : isSpace U (decodeLastRuneInString (leadText m ++ X)).1 = false) :
    trimSpace U (leadText m ++ X) = leadText m ++ X := by
  simpa using trimSpace_spaces U 0 _ (.inr (lead_first ok X blank.cut)) (.inr last)

theorem normalize_channel :
    (if contains (headerText m) channelMarker then
        trimSpace U (replaceAll (headerText m) channelMarker (ascii " " ++ channelMarker))
      else headerText m) = leadText m ++ recipientText m ++ spacedChannel m ++ typeText m := by
  have front : ∀ X, index (leadText m ++ recipientText m ++ X) channelMarker =
      (index X channelMarker).map (· + (leadText m ++ recipientText m).length) :=
    fun X => index_append_of_not_mem channelMarker_head _ X (front_noAngle ok)
  rw [headerText_eq]
  by_cases named : m.channel = []
  · have noChannel : channelText m = [] := by simp [channelText, named]
    have noSpaced : spacedChannel m = [] := by simp [spacedChannel, named]
    rw [noChannel, noSpaced, List.append_nil, if_neg]
    rw [contains, front, typeText_index_channel ok]
    simp
  rw [channelText, spacedChannel, if_pos named, if_pos named]
  have found : index (leadText m ++ recipientText m ++ (channelMarker ++ m.channel) ++ typeText m) channelMarker =
      some (leadText m ++ recipientText m).length := by
    rw [List.append_assoc _ (channelMarker ++ _), front, List.append_assoc, index_at_start (List.prefix_append _ _)]
    simp
  have replaced : replaceAll (leadText m ++ recipientText m ++ (channelMarker ++ m.channel) ++ typeText m)
      channelMarker (ascii " " ++ channelMarker) =
      leadText m ++ recipientText m ++ (ascii " " ++ channelMarker ++ m.channel) ++ typeText m := by
    unfold replaceAll
    have tailLen : (ascii "|channel|>").length = 10 := rfl
    rw [List.append_assoc _ (channelMarker ++ _), List.append_assoc channelMarker,
      replaceAllFrom_append_of_not_mem channelMarker_head _ _ _ (front_noAngle ok) _ (by simp),
      replaceAllFrom_at_start _ _ _ (by simp [channelMarker_eq]) (by simp [channelMarker_eq]),
      replaceAllFrom_append_of_not_mem channelMarker_head _ _ _ (plainWord_noAngle ok.channel) _
        (by simp [channelMarker_eq]; omega),
      typeText_replace_channel ok]
    simp
  rw [contains, found, Option.isSome_some, if_pos rfl, replaced]
  simp only [List.append_assoc]
  apply trimSpace_lead ok
  · exact blankHead_append (recipientText_shape ok).2 (blankHead_space _)
  · by_cases typed : m.contentType = []
    · simpa [typeText, typed, spacedChannel, named, List.append_assoc] using
        spacedChannel_last ok named (leadText m ++ recipientText m)
    · simpa [spacedChannel, named, List.append_assoc] using
        typeText_last ok typed (leadText m ++ recipientText m ++ spacedChannel m)

theorem channelTail_noAngle : (0x3C : UInt8) ∉ ascii "|channel|>" ++ m.channel := by
  simpa using ⟨by decide, plainWord_noAngle ok.channel⟩

theorem spacedChannel_index_constrain (X : ByteString) :
    index (spacedChannel m ++ X) constrainMarker = (index X constrainMarker).map (· + (spacedChannel m).length) := by
  unfold spacedChannel
  split_ifs
  · rw [show ascii " " ++ channelMarker ++ m.channel ++ X = 0x20 :: 0x3C :: (ascii "|channel|>" ++ (m.channel ++ X))
        from rfl, index_cons_of_mismatch (constrainMarker_not_blank _),
      index_cons_of_mismatch (constrainMarker_not_channel _), ← List.append_assoc,
      index_append_of_not_mem constrainMarker_head _ X (channelTail_noAngle ok)]
    simp only [Option.map_map]
    congr 1
  · simp

theorem spacedChannel_replace_constrain (new X : ByteString) (fuel : Nat) (enough : (spacedChannel m).length ≤ fuel) :
    replaceAllFrom constrainMarker new fuel (spacedChannel m ++ X) =
      spacedChannel m ++ replaceAllFrom constrainMarker new (fuel - (spacedChannel m).length) X := by
  unfold spacedChannel at enough ⊢
  split_ifs at enough ⊢
  · have spaceLen : (ascii " ").length = 1 := rfl
    obtain ⟨fuel, rfl⟩ : ∃ f, fuel = f + 2 := ⟨fuel - 2, by simp [channelMarker_eq] at enough; omega⟩
    rw [show ascii " " ++ channelMarker ++ m.channel ++ X = 0x20 :: 0x3C :: (ascii "|channel|>" ++ (m.channel ++ X))
        from rfl, replaceAllFrom_cons_of_mismatch _ _ (constrainMarker_not_blank _),
      replaceAllFrom_cons_of_mismatch _ _ (constrainMarker_not_channel _), ← List.append_assoc,
      replaceAllFrom_append_of_not_mem constrainMarker_head _ _ _ (channelTail_noAngle ok) _
        (by simp [channelMarker_eq] at enough ⊢; omega)]
    simp only [List.length_append, channelMarker_eq, List.length_cons, spaceLen] at enough ⊢
    rw [show fuel + 2 - (1 + ((ascii "|channel|>").length + 1) + m.channel.length) =
      fuel - ((ascii "|channel|>").length + m.channel.length) by omega]
    rfl
  · simp

theorem plainType (unconstrained : ¬ constrainMarker <+: m.contentType) : plainWord U m.contentType = true := by
  rcases ok.contentType with plain | ⟨rest, spelled, _⟩
  · exact plain
  · exact absurd (spelled ▸ List.prefix_append _ _) unconstrained

theorem typeText_index_constrain (unconstrained : ¬ constrainMarker <+: m.contentType) :
    index (typeText m) constrainMarker = none := by
  unfold typeText
  split_ifs
  · rw [show ascii " " ++ m.contentType = 0x20 :: m.contentType from rfl,
      index_cons_of_mismatch (constrainMarker_not_blank _),
      index_of_not_mem constrainMarker_head _ (plainWord_noAngle (plainType ok unconstrained))]
    rfl
  · rfl

theorem normalize_constrain :
    (if contains (leadText m ++ recipientText m ++ spacedChannel m ++ typeText m) constrainMarker then
        trimSpace U (replaceAll (leadText m ++ recipientText m ++ spacedChannel m ++ typeText m) constrainMarker
          (ascii " " ++ constrainMarker))
      else leadText m ++ recipientText m ++ spacedChannel m ++ typeText m) =
      leadText m ++ recipientText m ++ spacedChannel m ++ spacedType m := by
  have front : ∀ X, index (leadText m ++ recipientText m ++ X) constrainMarker =
      (index X constrainMarker).map (· + (leadText m ++ recipientText m).length) :=
    fun X => index_append_of_not_mem constrainMarker_head _ X (front_noAngle ok)
  by_cases constrained : constrainMarker <+: m.contentType
  · obtain ⟨rest, spelled, plain⟩ : ∃ rest, m.contentType = constrainMarker ++ rest ∧ plainWord U rest = true := by
      rcases ok.contentType with plain | found
      · obtain ⟨rest, spelled⟩ := constrained
        exact absurd (spelled ▸ by simp [constrainMarker_eq]) (plainWord_noAngle plain)
      · exact found
    have typed : m.contentType ≠ [] := by simp [spelled, constrainMarker_eq]
    have spelledType : typeText m = 0x20 :: (constrainMarker ++ rest) := by simp [typeText, typed, spelled]; rfl
    have spaced : spacedType m = ascii " " ++ ascii " " ++ constrainMarker ++ rest := by
      rw [spacedType, if_pos typed, if_pos constrained, spelled, List.append_assoc _ constrainMarker]
    have found : index (leadText m ++ recipientText m ++ spacedChannel m ++ typeText m) constrainMarker =
        some ((leadText m ++ recipientText m).length + (spacedChannel m).length + 1) := by
      rw [List.append_assoc _ (spacedChannel m), front, spacedChannel_index_constrain ok, spelledType,
        index_cons_of_mismatch (constrainMarker_not_blank _), index_at_start (List.prefix_append _ _)]
      simp only [Option.map_some']
      congr 1
      omega
    have replaced : replaceAll (leadText m ++ recipientText m ++ spacedChannel m ++ typeText m) constrainMarker
        (ascii " " ++ constrainMarker) = leadText m ++ recipientText m ++ spacedChannel m ++ spacedType m := by
      unfold replaceAll
      have markerLen : constrainMarker.length = 13 := rfl
      rw [List.append_assoc _ (spacedChannel m), replaceAllFrom_append_of_not_mem constrainMarker_head _ _ _
        (front_noAngle ok) _ (by simp), spacedChannel_replace_constrain ok _ _ _ (by simp; omega), spelledType,
        show ∀ f, replaceAllFrom constrainMarker (ascii " " ++ constrainMarker) f (0x20 :: (constrainMarker ++ rest)) =
          replaceAllFrom constrainMarker (ascii " " ++ constrainMarker) f ([0x20] ++ (constrainMarker ++ rest)) from
          fun _ => rfl,
        replaceAllFrom_append_of_not_mem constrainMarker_head _ _ _ (by decide) _ (by simp; omega),
        replaceAllFrom_at_start _ _ _ (by simp [constrainMarker_eq]) (by simp; omega),
        replaceAllFrom_of_not_mem constrainMarker_head _ _ (plainWord_noAngle plain), spaced]
      simp
      rfl
    rw [contains, found, Option.isSome_some, if_pos rfl, replaced]
    simp only [List.append_assoc]
    apply trimSpace_lead ok
    · exact blankHead_append (recipientText_shape ok).2
        (blankHead_append (spacedChannel_blankHead m) (spacedType_blankHead m))
    · simpa [List.append_assoc] using spacedType_last ok typed (leadText m ++ recipientText m ++ spacedChannel m)
  · rw [contains, List.append_assoc _ (spacedChannel m), front, spacedChannel_index_constrain ok,
      typeText_index_constrain ok constrained, spacedType_plain constrained]
    simp

theorem normalizeHeader_headerText :
    normalizeHeader U (headerText m) = leadText m ++ recipientText m ++ spacedChannel m ++ spacedType m := by
  unfold normalizeHeader
  dsimp only
  rw [normalize_channel ok, normalize_constrain ok]

theorem spacedType_trim : trimSpace U (spacedType m) = m.contentType := by
  by_cases typed : m.contentType = []
  · simp only [spacedType, typed, ne_eq, not_true_eq_false, if_false]
    rfl
  have first := typeWord_first ok.contentType typed [] (by simp)
  have last := typeWord_last ok.contentType typed [] (fun _ mem => by cases mem)
  rw [List.append_nil] at first
  rw [List.nil_append] at last
  unfold spacedType
  rw [if_pos typed]
  by_cases constrained : constrainMarker <+: m.contentType
  · rw [if_pos constrained]
    exact trimSpace_spaces U 2 _ (.inr first) (.inr last)
  · rw [if_neg constrained, List.append_nil]
    exact trimSpace_spaces U 1 _ (.inr first) (.inr last)

theorem channelAndType_last : channelAndType m = [] ∨
    isSpace U (decodeLastRuneInString (channelAndType m)).1 = false := by
  unfold channelAndType
  split_ifs with named
  · by_cases typed : m.contentType = []
    · rw [show spacedType m = [] by simp [spacedType, typed], List.append_nil,
        show channelMarker = ascii "<|channel|" ++ [0x3E] from rfl]
      exact .inr (plainWord_last ok.channel named _ (cut_snoc _ (by decide)))
    · exact .inr (by simpa using spacedType_last ok typed (channelMarker ++ m.channel))
  · by_cases typed : m.contentType = []
    · exact .inl typed
    · exact .inr (by simpa using typeWord_last ok.contentType typed [] (fun _ mem => by cases mem))

theorem spacedChannel_trim : trimSpace U (spacedChannel m ++ spacedType m) = channelAndType m := by
  unfold spacedChannel
  split_ifs with named
  · rw [show channelAndType m = channelMarker ++ m.channel ++ spacedType m by simp [channelAndType, named]]
    have last := channelAndType_last ok
    rw [channelAndType, if_pos named] at last
    simpa using trimSpace_spaces U 1 (channelMarker ++ m.channel ++ spacedType m) (.inr rfl) last
  · rw [List.nil_append, spacedType_trim ok]
    simp [channelAndType, named]

theorem afterLead_trim :
    trimSpace U (recipientText m ++ spacedChannel m ++ spacedType m) = afterLead m := by
  unfold recipientText afterLead
  split_ifs with needs
  · have last : isSpace U (decodeLastRuneInString (ascii "to=" ++ m.recipient ++ spacedChannel m ++ spacedType m)).1 =
        false := by
      by_cases typed : m.contentType = []
      · rw [show spacedType m = [] by simp [spacedType, typed], List.append_nil]
        by_cases named : m.channel = []
        · rw [show spacedChannel m = [] by simp [spacedChannel, named], List.append_nil,
            show ascii "to=" = ascii "to" ++ [0x3D] from rfl]
          exact plainWord_last ok.recipient needs.1 _ (cut_snoc _ (by decide))
        · exact spacedChannel_last ok named _
      · exact spacedType_last ok typed _
    simpa using trimSpace_spaces U 1 (ascii "to=" ++ m.recipient ++ spacedChannel m ++ spacedType m) (.inr rfl) (.inr last)
  · rw [List.nil_append]
    exact spacedChannel_trim ok

theorem lead_stop : ∀ b ∈ leadText m, isTokenStop b.toNat = false := by
  intro b mem
  have ⟨angle, blank⟩ := lead_shape ok
  simp only [isTokenStop, Bool.or_eq_false_iff, beq_eq_false_iff_ne]
  exact ⟨fun same => blank (by rwa [show b = 0x20 from UInt8.toNat.inj same] at mem),
    fun same => angle (by rwa [show b = 0x3C from UInt8.toNat.inj same] at mem)⟩

theorem splitLeadingToken_normalized :
    splitLeadingToken U (leadText m ++ recipientText m ++ spacedChannel m ++ spacedType m) = (leadText m, afterLead m) := by
  have blank := blankHead_append (blankHead_append (recipientText_shape ok).2 (spacedChannel_blankHead m))
    (spacedType_blankHead m)
  have stop : indexRune isTokenStop (leadText m ++ recipientText m ++ spacedChannel m ++ spacedType m) =
      if recipientText m ++ spacedChannel m ++ spacedType m = [] then none else some (leadText m).length := by
    rw [indexRune_ascii _ (fun r hit => by simp [isTokenStop] at hit; omega), List.append_assoc, List.append_assoc,
      findIdx?_append_of_none _ _ (lead_stop ok), ← List.append_assoc]
    split_ifs with empty
    · rw [empty]; rfl
    · obtain ⟨b, rest, spelled⟩ := List.exists_cons_of_ne_nil empty
      have space := blank b (by simp [spelled])
      rw [spelled, List.findIdx?_cons, space]
      simp [isTokenStop]
  unfold splitLeadingToken
  have whole : leadText m ++ recipientText m ++ spacedChannel m ++ spacedType m =
      leadText m ++ (recipientText m ++ spacedChannel m ++ spacedType m) := by
    simp only [List.append_assoc]
  rw [stop, ← afterLead_trim ok, whole]
  split_ifs with empty
  · rw [empty]
    simp only [List.append_nil, Option.getD_none, List.take_length, lt_self_iff_false, if_false]
    rfl
  · have longer : (leadText m).length < (leadText m ++ (recipientText m ++ spacedChannel m ++ spacedType m)).length := by
      simpa using List.length_pos.mpr empty
    simp only [Option.getD_some, List.take_left, List.drop_left, if_pos longer]

theorem detect_lead : detectRoleAndAuthor U (leadText m) (afterLead m) = (m.author.role, m.author.name) := by
  by_cases tool : m.author.role = roleTool
  · rw [leadText, if_pos tool, tool]
    exact detectRoleAndAuthor_tool U (ok.toolName tool).1 (ok.toolName tool).2 _
  · have listed : m.author.role ∈ speakerRoles := by
      have := ok.role
      simp only [roleWords, speakerRoles, List.mem_cons, List.mem_singleton, List.not_mem_nil, or_false] at this ⊢
      tauto
    rw [leadText, if_neg tool]
    exact detectRoleAndAuthor_speaker U listed _ _

theorem spacedType_index_channel : index (spacedType m) channelMarker = none := by
  unfold spacedType
  split_ifs
  · rw [show ascii " " ++ ascii " " ++ m.contentType = 0x20 :: 0x20 :: m.contentType from rfl,
      index_cons_of_mismatch (channelMarker_not_blank _), index_cons_of_mismatch (channelMarker_not_blank _),
      typeWord_index_channel ok.contentType]
    rfl
  · rw [show ascii " " ++ [] ++ m.contentType = 0x20 :: m.contentType from rfl,
      index_cons_of_mismatch (channelMarker_not_blank _), typeWord_index_channel ok.contentType]
    rfl
  · rfl

theorem spacedType_index_recipient : index (spacedType m) (ascii " to=") = none := by
  unfold spacedType
  split_ifs
  · rw [show ascii " " ++ ascii " " ++ m.contentType = 0x20 :: 0x20 :: m.contentType from rfl,
      index_cons_of_mismatch (recipientMarker_not_blank _), index_cons_of_mismatch (typeWord_not_recipient ok.contentType),
      typeWord_index_recipient ok.contentType]
    rfl
  · rw [show ascii " " ++ [] ++ m.contentType = 0x20 :: m.contentType from rfl,
      index_cons_of_mismatch (typeWord_not_recipient ok.contentType), typeWord_index_recipient ok.contentType]
    rfl
  · rfl

theorem channelPart_noBlank : (0x20 : UInt8) ∉ channelMarker ++ m.channel := by
  simpa using ⟨by decide, plainWord_noBlank ok.channel⟩

theorem spacedChannel_index_recipient (X : ByteString) :
    index (spacedChannel m ++ X) (ascii " to=") = (index X (ascii " to=")).map (· + (spacedChannel m).length) := by
  unfold spacedChannel
  split_ifs
  · rw [show ascii " " ++ channelMarker ++ m.channel ++ X = 0x20 :: (channelMarker ++ (m.channel ++ X)) from rfl,
      index_cons_of_mismatch (recipientMarker_not_channel _), ← List.append_assoc,
      index_append_of_not_mem recipientMarker_head _ X (channelPart_noBlank ok),
      Option.map_map]
    congr 1
  · simp

theorem recipient_stop : ∀ b ∈ m.recipient, (b == 0x20 || b == 0x3C) = false := by
  intro b mem
  simp only [Bool.or_eq_false_iff, beq_eq_false_iff_ne]
  exact ⟨fun same => plainWord_noBlank ok.recipient (same ▸ mem), fun same => plainWord_noAngle ok.recipient (same ▸ mem)⟩

theorem extractRecipient_normalized :
    extractRecipient (leadText m ++ recipientText m ++ spacedChannel m ++ spacedType m) = m.recipient := by
  have front : index (leadText m ++ recipientText m ++ spacedChannel m ++ spacedType m) (ascii " to=") =
      (index (recipientText m ++ (spacedChannel m ++ spacedType m)) (ascii " to=")).map (· + (leadText m).length) := by
    simp only [List.append_assoc]
    exact index_append_of_not_mem recipientMarker_head _ _ (lead_shape ok).2
  unfold extractRecipient
  rw [front]
  by_cases needs : needsRecipient m
  · rw [recipientText, if_pos needs, List.append_assoc, index_at_start (List.prefix_append _ _)]
    have after : (leadText m ++ (ascii " to=" ++ m.recipient) ++ spacedChannel m ++ spacedType m).drop
        (0 + (leadText m).length + 4) = m.recipient ++ (spacedChannel m ++ spacedType m) := by
      simp only [List.append_assoc, Nat.zero_add]
      rw [List.drop_append_eq_append_drop, List.drop_eq_nil_of_le (by omega), List.nil_append,
        show (leadText m).length + 4 - (leadText m).length = 4 by omega]
      rfl
    simp only [Option.map_some']
    rw [after, findIdx?_append_of_none _ _ (recipient_stop ok)]
    have blank := blankHead_append (spacedChannel_blankHead m) (spacedType_blankHead m)
    cases rest : spacedChannel m ++ spacedType m with
    | nil => simp
    | cons b tail =>
      have space : b = 0x20 := blank b (by simp [rest])
      simp [space]
  · have unnamed : m.recipient = [] := by
      by_contra named
      exact needs ⟨named, ok.notAll⟩
    rw [recipientText, if_neg needs, List.nil_append, spacedChannel_index_recipient ok, spacedType_index_recipient ok,
      unnamed]
    rfl

theorem extractChannel_normalized :
    extractChannel (leadText m ++ recipientText m ++ spacedChannel m ++ spacedType m) = m.channel := by
  have front : index (leadText m ++ recipientText m ++ spacedChannel m ++ spacedType m) channelMarker =
      (index (spacedChannel m ++ spacedType m) channelMarker).map (· + (leadText m ++ recipientText m).length) := by
    rw [List.append_assoc _ (spacedChannel m)]
    exact index_append_of_not_mem channelMarker_head _ _ (front_noAngle ok)
  unfold extractChannel
  rw [front]
  by_cases named : m.channel = []
  · rw [show spacedChannel m = [] by simp [spacedChannel, named], List.nil_append, spacedType_index_channel ok, named]
    rfl
  rw [spacedChannel, if_pos named,
    show ascii " " ++ channelMarker ++ m.channel ++ spacedType m = 0x20 :: (channelMarker ++ (m.channel ++ spacedType m))
      from rfl, index_cons_of_mismatch (channelMarker_not_blank _), index_at_start (List.prefix_append _ _)]
  have after : ∀ n, n = (leadText m ++ recipientText m).length + 1 + channelMarker.length →
      (leadText m ++ recipientText m ++ (ascii " " ++ channelMarker ++ m.channel) ++ spacedType m).drop n =
        m.channel ++ spacedType m := by
    rintro n rfl
    rw [show leadText m ++ recipientText m ++ (ascii " " ++ channelMarker ++ m.channel) ++ spacedType m =
      (leadText m ++ recipientText m ++ ascii " " ++ channelMarker) ++ (m.channel ++ spacedType m) by simp]
    exact List.drop_left' (by simp; rfl)
  simp only [Option.map_some']
  rw [after _ (by omega)]
  cases rest : spacedType m with
  | nil => rw [List.append_nil, indexByte_of_not_mem _ _ (plainWord_noBlank ok.channel)]
  | cons b tail =>
    have space : b = 0x20 := spacedType_blankHead m b (by simp [rest])
    rw [space, indexByte_append_cons _ _ _ (plainWord_noBlank ok.channel)]
    simp

theorem afterLead_unprefixed :
    ∀ r ∈ [roleAssistant, roleUser, roleSystem, roleDeveloper], hasPrefix (afterLead m) r = false := by
  unfold afterLead channelAndType
  split_ifs with needs named
  · simp only [List.mem_cons, List.mem_singleton, List.not_mem_nil, or_false]
    rintro r (rfl | rfl | rfl | rfl) <;> rfl
  · simp only [List.mem_cons, List.mem_singleton, List.not_mem_nil, or_false]
    rintro r (rfl | rfl | rfl | rfl) <;> rfl
  · exact ok.bareType (by by_contra unnamed; exact needs ⟨unnamed, ok.notAll⟩) (not_not.mp named)

theorem channelAndType_not_recipient : hasPrefix (channelAndType m) (ascii "to=") = false := by
  unfold channelAndType
  split_ifs
  · rfl
  · exact Bool.eq_false_iff.mpr fun prefixed =>
      typeWord_noTo ok.contentType (Iff.mp List.isPrefixOf_iff_prefix prefixed)

theorem channelAndType_index_recipient : index (channelAndType m) (ascii " to=") = none := by
  unfold channelAndType
  split_ifs
  · rw [index_append_of_not_mem recipientMarker_head _ _ (channelPart_noBlank ok), spacedType_index_recipient ok]
    rfl
  · exact typeWord_index_recipient ok.contentType

theorem stripRecipient_afterLead : stripRecipient U (afterLead m) = channelAndType m := by
  unfold afterLead
  split_ifs with needs
  · unfold stripRecipient
    rw [if_pos (by simp [hasPrefix, List.isPrefixOf_iff_prefix, List.append_assoc])]
    have dropped : (ascii "to=" ++ m.recipient ++ spacedChannel m ++ spacedType m).drop 3 =
        m.recipient ++ (spacedChannel m ++ spacedType m) := by
      simp only [List.append_assoc]
      rfl
    simp only [dropped]
    cases rest : spacedChannel m ++ spacedType m with
    | nil =>
      obtain ⟨named, typed⟩ := bare_of_empty rest
      rw [List.append_nil, indexByte_of_not_mem _ _ (plainWord_noBlank ok.recipient)]
      simp [channelAndType, named, typed]
    | cons b tail =>
      have space : b = 0x20 := blankHead_append (spacedChannel_blankHead m) (spacedType_blankHead m) b (by simp [rest])
      rw [space, indexByte_append_cons _ _ _ (plainWord_noBlank ok.recipient)]
      dsimp only
      rw [List.drop_left, ← space, ← rest, spacedChannel_trim ok]
  · unfold stripRecipient
    rw [if_neg (by simp [channelAndType_not_recipient ok]), channelAndType_index_recipient ok]

theorem stripChannels_channelAndType :
    stripChannels U (channelAndType m).length (channelAndType m) = m.contentType := by
  by_cases named : m.channel = []
  · rw [show channelAndType m = m.contentType by simp [channelAndType, named]]
    exact stripChannels_of_index (typeWord_index_channel ok.contentType) U _
  obtain ⟨fuel, long⟩ : ∃ f, (channelAndType m).length = f + 1 :=
    ⟨(channelAndType m).length - 1, by simp [channelAndType, named, channelMarker_eq]⟩
  rw [long]
  have spelled : channelAndType m = channelMarker ++ (m.channel ++ spacedType m) := by
    simp [channelAndType, named]
  rw [spelled, stripChannels, index_at_start (List.prefix_append _ _)]
  dsimp only
  rw [Nat.zero_add, List.drop_left]
  cases rest : spacedType m with
  | nil =>
    rw [List.append_nil, indexByte_of_not_mem _ _ (plainWord_noBlank ok.channel)]
    have typed : m.contentType = [] := by
      by_contra typed
      simp [spacedType, typed] at rest
    rw [typed]
    exact stripChannels_of_index (show index [] channelMarker = none from rfl) U _
  | cons b tail =>
    have space : b = 0x20 := spacedType_blankHead m b (by simp [rest])
    rw [space, indexByte_append_cons _ _ _ (plainWord_noBlank ok.channel)]
    dsimp only
    rw [List.take_zero, List.nil_append, List.drop_left, ← space, ← rest, spacedType_trim ok]
    exact stripChannels_of_index (typeWord_index_channel ok.contentType) U _

theorem scrubContentType_afterLead : scrubContentType U (leadText m) (afterLead m) = m.contentType := by
  unfold scrubContentType
  rw [stripRolePrefix_of_unprefixed (afterLead_unprefixed ok), stripRecipient_afterLead ok]
  dsimp only
  rw [stripChannels_channelAndType ok, typeWord_trim ok.contentType]

theorem parseHeaderText_headerText :
    parseHeaderText U none (headerText m) = ⟨m.author, m.recipient, m.channel, m.contentType⟩ := by
  unfold parseHeaderText
  simp only [normalizeHeader_headerText ok, splitLeadingToken_normalized ok, detect_lead ok,
    extractRecipient_normalized ok, extractChannel_normalized ok, scrubContentType_afterLead ok]

end Message

theorem itemTexts_text (env : RenderEnv) (opts : RenderOptions) {cs : List Content}
    (texts : ∀ c ∈ cs, c.type = contentText) : itemTexts env opts cs = .ok (cs.map Content.text) := by
  induction cs with
  | nil => rfl
  | cons c cs ih =>
    simp only [itemTexts, itemText, texts c (List.mem_cons_self c cs), if_true,
      ih (fun c' mem => texts c' (List.mem_cons_of_mem c mem))]
    rfl

theorem messageTexts_recoverable {U : UnicodeTables} {m : Message} (ok : Recoverable U m) (env : RenderEnv)
    (opts : RenderOptions) : messageTexts env opts m = .ok (m.content.map Content.text) := by
  have named : ¬ toolWithoutName m := fun ⟨tool, empty⟩ => (ok.toolName tool).1 empty
  rw [messageTexts, if_neg named, itemTexts_text env opts ok.texts]

theorem renderConversation_roundTrip (U : UnicodeTables) (pairs : List (ByteString × Rank))
    (wf : WellFormedVocabulary pairs harmonySpecials) (env : RenderEnv) (conv : Conversation)
    (recoverable : ∀ m ∈ conv.messages, Recoverable U m) :
    ∃ r msgs, (gptOss U pairs).renderConversation env conv (some ⟨false⟩) = .ok r ∧
      (gptOss U pairs).parseMessagesFromCompletionTokens U r none = .ok msgs ∧
      List.Forall₂ (fun m pm => pm = ⟨m.author, m.recipient, [textContent (m.content.map Content.text).flatten],
        m.channel, m.contentType⟩) conv.messages msgs := by
  have kept : keptMessages (autoDropAnalysis (some ⟨false⟩)) conv.messages = conv.messages := keptMessages_false _
  obtain ⟨r, rendered⟩ : ∃ r, (gptOss U pairs).renderConversation env conv (some ⟨false⟩) = .ok r :=
    Encoding.renderConversation_succeeds fun m mem =>
      ⟨_, messageTexts_recoverable (recoverable m (kept ▸ mem)) env _⟩
  have fields : ∀ msgs, List.Forall₂ (fun m pm => ∃ texts,
      messageTexts env ⟨(prepass conv.messages).hasFunctionTools⟩ m = .ok texts ∧
        pm = parsedMessage (parseHeaderText U none (headerText m)) texts.flatten) conv.messages msgs →
      List.Forall₂ (fun m pm => pm = ⟨m.author, m.recipient, [textContent (m.content.map Content.text).flatten],
        m.channel, m.contentType⟩) conv.messages msgs := by
    intro msgs parsed
    refine ((List.forall₂_and_left _ _).mpr ⟨recoverable, parsed⟩).imp ?_
    rintro m pm ⟨ok, texts, found, rfl⟩
    rw [messageTexts_recoverable ok] at found
    cases found
    rw [parseHeaderText_headerText ok]
    rfl
  rcases Encoding.renderConversation_ok rendered with joined | pieces
  · obtain ⟨msgs, parsed, each⟩ :=
      parse_rendersAs U wf env _ (renderHeaderJoined_ranks U wf) (renderHeaderJoined_decodes U wf) joined
    rw [kept] at each
    exact ⟨r, msgs, rendered, parsed, fields msgs each⟩
  · obtain ⟨msgs, parsed, each⟩ :=
      parse_rendersAs U wf env _ (renderHeaderPieces_ranks U wf) (renderHeaderPieces_decodes U wf) pieces
    rw [kept] at each
    exact ⟨r, msgs, rendered, parsed, fields msgs each⟩

theorem render_roundTrip (U : UnicodeTables) (pairs : List (ByteString × Rank))
    (wf : WellFormedVocabulary pairs harmonySpecials) (env : RenderEnv) {m : Message} (ok : Recoverable U m) :
    ∃ r, (gptOss U pairs).render env m = .ok r ∧
      (gptOss U pairs).parseMessagesFromCompletionTokens U r none =
        .ok [⟨m.author, m.recipient, [textContent (m.content.map Content.text).flatten], m.channel, m.contentType⟩] := by
  have found := messageTexts_recoverable ok env ⟨false⟩
  set blk := (gptOss U pairs).block ((gptOss U pairs).renderHeaderPieces m []) m (m.content.map Content.text)
  have single : (gptOss U pairs).RendersAs env ⟨false⟩ (fun m => (gptOss U pairs).renderHeaderPieces m []) [m] blk :=
    ⟨[blk], by simp, .cons ⟨_, found, rfl⟩ .nil⟩
  obtain ⟨msgs, parsed, each⟩ :=
    parse_rendersAs U wf env _ (renderHeaderPieces_ranks U wf) (renderHeaderPieces_decodes U wf) single
  rcases each with _ | ⟨⟨texts, found', rfl⟩, _ | _⟩
  rw [found] at found'
  cases found'
  refine ⟨blk, Encoding.renderMessage_ok _ _ _ found, ?_⟩
  rw [parsed, parseHeaderText_headerText ok]
  rfl

def assistantCall : Message :=
  ⟨⟨roleAssistant, ascii "bot"⟩, ascii "functions.get", [textContent (ascii "hi")], ascii "commentary",
    constrainMarker ++ ascii "json"⟩

theorem assistantCall_recoverable : Recoverable asciiTables assistantCall :=
  ⟨by decide, by decide, rfl, rfl, by decide, rfl, .inr ⟨ascii "json", rfl, rfl⟩, fun tool => absurd tool (by decide),
    fun unnamed => absurd unnamed (by decide)⟩

theorem renderConversation_roundTrip_assistantCall :
    Recoverable asciiTables assistantCall ∧
      ∃ r msgs, byteEncoding.renderConversation toyEnv ⟨[assistantCall]⟩ (some ⟨false⟩) = .ok r ∧
        byteEncoding.parseMessagesFromCompletionTokens asciiTables r none = .ok msgs ∧
        List.Forall₂ (fun m pm => pm = ⟨m.author, m.recipient, [textContent (m.content.map Content.text).flatten],
          m.channel, m.contentType⟩) [assistantCall] msgs :=
  ⟨assistantCall_recoverable, renderConversation_roundTrip asciiTables byteVocabulary byteVocabulary_harmony toyEnv
    ⟨[assistantCall]⟩ fun m mem => by rw [List.mem_singleton.mp mem]; exact assistantCall_recoverable⟩

theorem render_roundTrip_assistantCall :
    Recoverable asciiTables assistantCall ∧
      ∃ r, byteEncoding.render toyEnv assistantCall = .ok r ∧
        byteEncoding.parseMessagesFromCompletionTokens asciiTables r none =
          .ok [⟨assistantCall.author, assistantCall.recipient, [textContent (ascii "hi")], assistantCall.channel,
            assistantCall.contentType⟩] :=
  ⟨assistantCall_recoverable, render_roundTrip asciiTables byteVocabulary byteVocabulary_harmony toyEnv
    assistantCall_recoverable⟩

def roleTyped : Message := ⟨⟨roleUser, []⟩, [], [textContent (ascii "hi")], [], ascii "assistantx"⟩

set_option maxRecDepth 10000 in
theorem roleTyped_loses_role_word :
    plainWord asciiTables roleTyped.contentType = true ∧
      ∃ r msgs, byteEncoding.renderConversation toyEnv ⟨[roleTyped]⟩ (some ⟨false⟩) = .ok r ∧
        byteEncoding.parseMessagesFromCompletionTokens asciiTables r none = .ok msgs ∧
        msgs.map Message.contentType = [ascii "x"] :=
  ⟨rfl, _, _, rfl, rfl, rfl⟩

end Harmony
