import Harmony.Format.StreamParserLaws
import Harmony.Format.ConversationLaws

set_option autoImplicit false

namespace Harmony

open StreamParser

def specialIds : List Rank := harmonySpecials.entries.map Prod.snd

def IsRank (pairs : List (ByteString × Rank)) (t : Rank) : Prop := ∃ x, (x, t) ∈ pairs

theorem named_specialIds {t : Rank} (named : t ∈ namedSpecials.map Prod.snd) : t ∈ specialIds := by
  rw [specialIds, harmonySpecials, List.map_append]
  exact List.mem_append_left _ named

theorem stopAll_specialIds {t : Rank} (stop : t ∈ stopAll) : t ∈ specialIds :=
  named_specialIds (by revert t; decide)

section Vocabulary

variable (U : UnicodeTables) {pairs : List (ByteString × Rank)} (wf : WellFormedVocabulary pairs harmonySpecials)
include wf

theorem isRank_not_special {t : Rank} (rank : IsRank pairs t) : t ∉ specialIds := by
  obtain ⟨x, mem⟩ := rank
  intro special
  obtain ⟨s, listed, rfl⟩ := List.mem_map.mp special
  exact wf.apart s listed _ mem rfl

theorem encodeOrdinary_isRank (text : ByteString) : ∀ t ∈ (gptOss U pairs).bpe.encodeOrdinary text, IsRank pairs t :=
  CoreBPE.encodeOrdinary_tokens _ (fun _ nonempty => encodePiece_ranks _ wf nonempty) (o200kNext_bounded U) text

theorem isRank_decodes {t : Rank} (rank : IsRank pairs t) :
    ∃ v, (gptOss U pairs).bpe.decodeBytesInto [] [t] = .ok v := by
  obtain ⟨x, mem⟩ := rank
  exact ⟨x, by simpa using (CoreBPE.decodes_token (dec_of_enc _ wf (enc_of_mem _ wf mem))) [] []⟩

theorem gptOss_roundTrips : (gptOss U pairs).bpe.RoundTrips := newCoreBPE_roundTrips _ wf (o200kNext_bounded U)

end Vocabulary

-- The strings `renderMessage` encodes one after another for the header, and `renderMessageInto` joins.
def headerPieces (m : Message) : List ByteString :=
  if m.author.role = roleTool then
    if needsRecipient m then [m.author.name, ascii " to=", m.recipient] else [m.author.name]
  else if m.author.name = [] ∧ ¬ needsRecipient m then [m.author.role]
  else
    [m.author.role] ++ (if m.author.name ≠ [] then [ascii ":", m.author.name] else []) ++
      (if needsRecipient m then [ascii " to=", m.recipient] else [])

-- What the channel and the content type add to the header's text.
def channelAndTypeText (m : Message) : ByteString :=
  (if m.channel ≠ [] then channelMarker ++ m.channel else []) ++
    (if m.contentType ≠ [] then ascii " " ++ m.contentType else [])

namespace Encoding

variable (e : Encoding)

theorem renderHeaderJoined_eq (m : Message) (out : List Rank) :
    e.renderHeaderJoined m out = out ++ e.bpe.encodeOrdinary (headerPieces m).flatten := by
  unfold renderHeaderJoined headerPieces
  split_ifs <;> simp [renderText_eq]

theorem renderHeaderPieces_eq (m : Message) (out : List Rank) :
    e.renderHeaderPieces m out = out ++ ((headerPieces m).map e.bpe.encodeOrdinary).flatten := by
  unfold renderHeaderPieces headerPieces
  split_ifs <;> simp [renderText_eq]

end Encoding

namespace CoreBPE

variable {b : CoreBPE} (rt : b.RoundTrips)
include rt

theorem decodes_flatten (texts : List ByteString) :
    b.Decodes (texts.map b.encodeOrdinary).flatten texts.flatten := by
  induction texts with
  | nil => exact decodes_nil
  | cons text rest ih => exact (decodes_encodeOrdinary rt text).append ih

end CoreBPE

namespace Encoding

section Decoding

variable {e : Encoding} (rt : e.bpe.RoundTrips)
include rt

theorem renderContentType_decodes (constrainDecodes : e.bpe.Decodes [idConstrain] constrainMarker) (ct : ByteString) :
    e.bpe.Decodes (e.renderContentType ct []) (ascii " " ++ ct) := by
  have ordinary := CoreBPE.decodes_encodeOrdinary rt
  unfold renderContentType
  by_cases constrained : ascii "<|constrain|>" <+: ct
  · obtain ⟨tail, rfl⟩ := constrained
    by_cases rest : tail = []
    · subst rest
      simpa [renderText_eq] using (ordinary _).append constrainDecodes
    · simpa [renderText_eq, rest] using ((ordinary _).append constrainDecodes).append (ordinary tail)
  · simpa [renderText_eq, constrained] using ordinary (ascii " " ++ ct)

theorem renderChannelAndType_decodes (channelDecodes : e.bpe.Decodes [idChannel] channelMarker)
    (constrainDecodes : e.bpe.Decodes [idConstrain] constrainMarker) (m : Message) :
    e.bpe.Decodes (e.renderChannelAndType m []) (channelAndTypeText m) := by
  have typed := renderContentType_decodes rt constrainDecodes m.contentType
  have channel := channelDecodes.append (CoreBPE.decodes_encodeOrdinary rt m.channel)
  unfold renderChannelAndType channelAndTypeText
  by_cases named : m.channel ≠ []
  · rw [if_pos named, if_pos named, renderText_eq, List.nil_append]
    by_cases typedHere : m.contentType ≠ []
    · rw [if_pos typedHere, if_pos typedHere, renderContentType_frame]
      exact channel.append typed
    · rw [if_neg typedHere, if_neg typedHere, List.append_nil]
      exact channel
  · rw [if_neg named, if_neg named, List.nil_append]
    by_cases typedHere : m.contentType ≠ []
    · rw [if_pos typedHere, if_pos typedHere]
      exact typed
    · rw [if_neg typedHere, if_neg typedHere]
      exact CoreBPE.decodes_nil

end Decoding

end Encoding

theorem terminator_stop (m : Message) : terminator m ∈ stopAll := by
  unfold terminator
  split_ifs <;> decide

-- A header token: a rank, or one of the two markers a header may hold.
def HeaderToken (pairs : List (ByteString × Rank)) (x : Rank) : Prop := IsRank pairs x ∨ x = idChannel ∨ x = idConstrain

section Rendered

variable (U : UnicodeTables) {pairs : List (ByteString × Rank)} (wf : WellFormedVocabulary pairs harmonySpecials)
include wf

theorem named_decodes {lit : ByteString} {id : Rank} (mem : (lit, id) ∈ namedSpecials) :
    (gptOss U pairs).bpe.Decodes [id] lit :=
  special_decodes _ wf (List.mem_append_left _ mem)

theorem renderChannelAndType_tokens (m : Message) :
    ∀ x ∈ (gptOss U pairs).renderChannelAndType m [], HeaderToken pairs x := by
  have ranks := encodeOrdinary_isRank U wf
  intro x mem
  unfold Encoding.renderChannelAndType Encoding.renderContentType at mem
  simp only [Encoding.renderText_eq, List.nil_append] at mem
  unfold HeaderToken
  split_ifs at mem <;> simp only [List.mem_append, List.mem_singleton, List.not_mem_nil] at mem <;> aesop

theorem isRank_ne_special {t x : Rank} (rank : IsRank pairs t) (special : x ∈ specialIds) : t ≠ x :=
  fun same => isRank_not_special wf rank (same ▸ special)

theorem headerToken_free {x : Rank} (token : HeaderToken pairs x) : x ≠ tokStart ∧ x ≠ tokMessage := by
  rcases token with rank | rfl | rfl
  · exact ⟨isRank_ne_special wf rank (named_specialIds (by decide)),
      isRank_ne_special wf rank (named_specialIds (by decide))⟩
  all_goals decide

theorem body_free {texts : List ByteString} {x : Rank} (mem : x ∈ (texts.map (gptOss U pairs).bpe.encodeOrdinary).flatten) :
    x ∉ stopAll ∧ ∃ v, (gptOss U pairs).bpe.decodeBytesInto [] [x] = .ok v := by
  obtain ⟨_, listed, inside⟩ := List.mem_flatten.mp mem
  obtain ⟨text, -, rfl⟩ := List.mem_map.mp listed
  have rank := encodeOrdinary_isRank U wf text x inside
  exact ⟨fun stop => isRank_not_special wf rank (stopAll_specialIds stop), isRank_decodes U wf rank⟩

theorem block_readsAs {header : List Rank} {hs : ByteString} (headerRanks : ∀ x ∈ header, IsRank pairs x)
    (headerDecodes : (gptOss U pairs).bpe.Decodes header hs) (m : Message) (texts : List ByteString) :
    ReadsAs (gptOss U pairs) U ((gptOss U pairs).block header m texts)
      (parsedMessage (parseHeaderText U none (hs ++ channelAndTypeText m)) texts.flatten) := by
  have rt := gptOss_roundTrips U wf
  have typed := Encoding.renderChannelAndType_decodes rt (named_decodes U wf (by decide))
    (named_decodes U wf (by decide)) m
  refine ⟨header ++ (gptOss U pairs).renderChannelAndType m [], (texts.map (gptOss U pairs).bpe.encodeOrdinary).flatten,
    terminator m, hs ++ channelAndTypeText m, texts.flatten, ?_, ?_, (headerDecodes.append typed).decodeBytes,
    fun x mem => body_free U wf mem, (CoreBPE.decodes_flatten rt texts).decodeBytes, terminator_stop m, rfl⟩
  · simp [Encoding.block, formatting_ids]
  · intro x mem
    rcases List.mem_append.mp mem with inside | inside
    · exact headerToken_free wf (.inl (headerRanks x inside))
    · exact headerToken_free wf (renderChannelAndType_tokens U wf m x inside)

-- The text of a message's header, whichever renderer encoded it.
def headerText (m : Message) : ByteString := (headerPieces m).flatten ++ channelAndTypeText m

theorem renderHeaderJoined_ranks (m : Message) : ∀ x ∈ (gptOss U pairs).renderHeaderJoined m [], IsRank pairs x := by
  rw [Encoding.renderHeaderJoined_eq, List.nil_append]
  exact encodeOrdinary_isRank U wf _

theorem renderHeaderPieces_ranks (m : Message) : ∀ x ∈ (gptOss U pairs).renderHeaderPieces m [], IsRank pairs x := by
  rw [Encoding.renderHeaderPieces_eq, List.nil_append]
  intro x mem
  obtain ⟨_, listed, inside⟩ := List.mem_flatten.mp mem
  obtain ⟨piece, -, rfl⟩ := List.mem_map.mp listed
  exact encodeOrdinary_isRank U wf piece x inside

theorem renderHeaderJoined_decodes (m : Message) :
    (gptOss U pairs).bpe.Decodes ((gptOss U pairs).renderHeaderJoined m []) (headerPieces m).flatten := by
  rw [Encoding.renderHeaderJoined_eq, List.nil_append]
  exact CoreBPE.decodes_encodeOrdinary (gptOss_roundTrips U wf) _

theorem renderHeaderPieces_decodes (m : Message) :
    (gptOss U pairs).bpe.Decodes ((gptOss U pairs).renderHeaderPieces m []) (headerPieces m).flatten := by
  rw [Encoding.renderHeaderPieces_eq, List.nil_append]
  exact CoreBPE.decodes_flatten (gptOss_roundTrips U wf) _

theorem count_encodeOrdinary {x : Rank} (special : x ∈ specialIds) (text : ByteString) :
    ((gptOss U pairs).bpe.encodeOrdinary text).count x = 0 :=
  List.count_eq_zero_of_not_mem fun mem => isRank_ne_special wf (encodeOrdinary_isRank U wf text x mem) special rfl

theorem renderChannelAndType_count (m : Message) :
    ((gptOss U pairs).renderChannelAndType m []).count tokChannel ≤ 1 ∧
      ((gptOss U pairs).renderChannelAndType m []).count tokConstrain ≤ 1 := by
  have channel : ∀ text, ((gptOss U pairs).bpe.encodeOrdinary text).count tokChannel = 0 :=
    count_encodeOrdinary U wf (named_specialIds (by decide))
  have constrain : ∀ text, ((gptOss U pairs).bpe.encodeOrdinary text).count tokConstrain = 0 :=
    count_encodeOrdinary U wf (named_specialIds (by decide))
  unfold Encoding.renderChannelAndType Encoding.renderContentType
  simp only [Encoding.renderText_eq, List.nil_append]
  split_ifs <;> simp only [List.count_append, channel, constrain, Nat.add_zero, Nat.zero_add, List.count_nil] <;>
    decide

-- `<|start|> h <|message|> b t` with the special tokens only where the renderer puts them.
structure Framed (h b : List Rank) (t : Rank) : Prop where
  stop : t = tokEnd ∨ t = tokCall
  body : ∀ x ∈ b, x ∉ specialIds
  header : ∀ x ∈ h, x ∈ specialIds → x = tokChannel ∨ x = tokConstrain
  oneChannel : h.count tokChannel ≤ 1
  oneConstrain : h.count tokConstrain ≤ 1

theorem block_framed {header : List Rank} (ranks : ∀ x ∈ header, IsRank pairs x) (m : Message)
    (texts : List ByteString) :
    ∃ h b t, (gptOss U pairs).block header m texts = [tokStart] ++ h ++ [tokMessage] ++ b ++ [t] ∧ Framed h b t := by
  have counted := renderChannelAndType_count U wf m
  have uncounted : ∀ {x}, x ∈ specialIds → header.count x = 0 := fun special =>
    List.count_eq_zero_of_not_mem fun mem => isRank_ne_special wf (ranks _ mem) special rfl
  refine ⟨header ++ (gptOss U pairs).renderChannelAndType m [], (texts.map (gptOss U pairs).bpe.encodeOrdinary).flatten,
    terminator m, by simp [Encoding.block, formatting_ids], ⟨?_, ?_, ?_, ?_, ?_⟩⟩
  · unfold terminator
    split_ifs <;> decide
  · intro x mem special
    obtain ⟨_, listed, inside⟩ := List.mem_flatten.mp mem
    obtain ⟨text, -, rfl⟩ := List.mem_map.mp listed
    exact isRank_not_special wf (encodeOrdinary_isRank U wf text x inside) special
  · intro x mem special
    rcases List.mem_append.mp mem with inside | inside
    · exact absurd special (isRank_not_special wf (ranks x inside))
    · rcases renderChannelAndType_tokens U wf m x inside with rank | rfl | rfl
      · exact absurd special (isRank_not_special wf rank)
      · exact .inl rfl
      · exact .inr rfl
  · rw [List.count_append, uncounted (named_specialIds (by decide))]
    omega
  · rw [List.count_append, uncounted (named_specialIds (by decide))]
    omega

variable (env : RenderEnv) (opts : RenderOptions)

theorem parse_rendersAs {header : Message → List Rank} (ranks : ∀ m, ∀ x ∈ header m, IsRank pairs x)
    (decodes : ∀ m, (gptOss U pairs).bpe.Decodes (header m) (headerPieces m).flatten) {kept : List Message}
    {r : List Rank} (rendered : (gptOss U pairs).RendersAs env opts header kept r) :
    ∃ msgs, (gptOss U pairs).parseMessagesFromCompletionTokens U r none = .ok msgs ∧
      List.Forall₂ (fun m pm => ∃ texts, messageTexts env opts m = .ok texts ∧
        pm = parsedMessage (parseHeaderText U none (headerText m)) texts.flatten) kept msgs := by
  obtain ⟨blocks, rfl, each⟩ := rendered
  suffices read : ∃ msgs, List.Forall₂ (ReadsAs (gptOss U pairs) U) blocks msgs ∧
      List.Forall₂ (fun m pm => ∃ texts, messageTexts env opts m = .ok texts ∧
        pm = parsedMessage (parseHeaderText U none (headerText m)) texts.flatten) kept msgs by
    obtain ⟨msgs, reads, made⟩ := read
    exact ⟨msgs, parseMessages_of_readsAs reads, made⟩
  induction each with
  | nil => exact ⟨[], .nil, .nil⟩
  | @cons m blk ms blks made _ ih =>
    obtain ⟨texts, found, rfl⟩ := made
    obtain ⟨msgs, reads, parsed⟩ := ih
    exact ⟨_ :: msgs, .cons (block_readsAs U wf (ranks m) (decodes m) m texts) reads, .cons ⟨texts, found, rfl⟩ parsed⟩

theorem rendersAs_parses {header : Message → List Rank} (ranks : ∀ m, ∀ x ∈ header m, IsRank pairs x)
    (decodes : ∀ m, (gptOss U pairs).bpe.Decodes (header m) (headerPieces m).flatten) {kept : List Message}
    {r : List Rank} (rendered : (gptOss U pairs).RendersAs env opts header kept r) :
    ∃ blocks, r = blocks.flatten ∧
      List.Forall₂ (fun _ blk => ∃ h b t, blk = [tokStart] ++ h ++ [tokMessage] ++ b ++ [t] ∧ Framed h b t)
        kept blocks ∧
      ∃ msgs, (gptOss U pairs).parseMessagesFromCompletionTokens U r none = .ok msgs ∧
        List.Forall₂ (fun m pm => ∃ texts, messageTexts env opts m = .ok texts ∧ pm.content = [textContent texts.flatten])
          kept msgs := by
  obtain ⟨msgs, parsed, each⟩ := parse_rendersAs U wf env opts ranks decodes rendered
  obtain ⟨blocks, rfl, made⟩ := rendered
  refine ⟨blocks, rfl, made.imp fun {m blk} ⟨texts, _, shape⟩ => shape ▸ block_framed U wf (ranks m) m texts,
    msgs, parsed, each.imp fun {m pm} ⟨texts, found, shape⟩ => ⟨texts, found, by rw [shape]; rfl⟩⟩

end Rendered

theorem byteVocabulary_harmony : WellFormedVocabulary byteVocabulary harmonySpecials :=
  byteVocabulary_wellFormed_of harmonySpecials harmonySpecials_ids_nodup harmonySpecials_ids_above

def byteEncoding : Encoding := gptOss asciiTables byteVocabulary

theorem renderConversation_parses_back (U : UnicodeTables) (pairs : List (ByteString × Rank))
    (wf : WellFormedVocabulary pairs harmonySpecials) (env : RenderEnv) (conv : Conversation)
    (cfg : Option RenderConversationConfig) (r : List Rank)
    (ok : (gptOss U pairs).renderConversation env conv cfg = .ok r) :
    ∃ blocks, r = blocks.flatten ∧
      List.Forall₂ (fun _ blk => ∃ h b t, blk = [tokStart] ++ h ++ [tokMessage] ++ b ++ [t] ∧ Framed h b t)
        (keptMessages (autoDropAnalysis cfg) conv.messages) blocks ∧
      ∃ msgs, (gptOss U pairs).parseMessagesFromCompletionTokens U r none = .ok msgs ∧
        List.Forall₂ (fun m pm => ∃ texts, messageTexts env ⟨(prepass conv.messages).hasFunctionTools⟩ m = .ok texts ∧
          pm.content = [textContent texts.flatten]) (keptMessages (autoDropAnalysis cfg) conv.messages) msgs := by
  rcases Encoding.renderConversation_ok ok with rendered | rendered
  · exact rendersAs_parses U wf env _ (renderHeaderJoined_ranks U wf) (renderHeaderJoined_decodes U wf) rendered
  · exact rendersAs_parses U wf env _ (renderHeaderPieces_ranks U wf) (renderHeaderPieces_decodes U wf) rendered

theorem renderConversation_autoDrop_parses_back (U : UnicodeTables) (pairs : List (ByteString × Rank))
    (wf : WellFormedVocabulary pairs harmonySpecials) (env : RenderEnv) (conv : Conversation)
    (cfg : Option RenderConversationConfig) (r : List Rank) (autoOn : autoDropAnalysis cfg = true)
    (ok : (gptOss U pairs).renderConversation env conv cfg = .ok r) :
    ∃ msgs, (gptOss U pairs).parseMessagesFromCompletionTokens U r none = .ok msgs ∧
      List.Forall₂ (fun m pm => ∃ texts, messageTexts env ⟨(prepass conv.messages).hasFunctionTools⟩ m = .ok texts ∧
          pm.content = [textContent texts.flatten])
        ((conv.messages.enum.filter fun im => !droppedByRule conv.messages im.1 im.2).map Prod.snd) msgs := by
  have kept : keptMessages (autoDropAnalysis cfg) conv.messages =
      (conv.messages.enum.filter fun im => !droppedByRule conv.messages im.1 im.2).map Prod.snd := by
    rw [keptMessages_eq, autoOn]
    simp only [Bool.true_and]
  rw [← kept]
  rcases Encoding.renderConversation_ok ok with rendered | rendered
  · obtain ⟨_, _, _, parsed⟩ :=
      rendersAs_parses U wf env _ (renderHeaderJoined_ranks U wf) (renderHeaderJoined_decodes U wf) rendered
    exact parsed
  · obtain ⟨_, _, _, parsed⟩ :=
      rendersAs_parses U wf env _ (renderHeaderPieces_ranks U wf) (renderHeaderPieces_decodes U wf) rendered
    exact parsed

def userAnalysis : Message := ⟨⟨roleUser, []⟩, [], [textContent (ascii "a")], channelAnalysis, []⟩

def assistantFinal : Message := ⟨⟨roleAssistant, []⟩, [], [textContent (ascii "b")], channelFinal, []⟩

set_option maxRecDepth 10000 in
theorem userAnalysis_dropped :
    userAnalysis.author.role = roleUser ∧
      ∃ r msgs, byteEncoding.renderConversation toyEnv ⟨[userAnalysis, assistantFinal]⟩ none = .ok r ∧
        byteEncoding.parseMessagesFromCompletionTokens asciiTables r none = .ok msgs ∧ msgs.length = 1 :=
  ⟨rfl, _, _, rfl, rfl, rfl⟩

set_option maxRecDepth 10000 in
theorem renderConversation_autoDrop_parses_back_userAnalysis :
    ∃ r, byteEncoding.renderConversation toyEnv ⟨[userAnalysis, assistantFinal]⟩ none = .ok r ∧
      ∃ msgs, byteEncoding.parseMessagesFromCompletionTokens asciiTables r none = .ok msgs ∧
        List.Forall₂ (fun m pm => ∃ texts, messageTexts toyEnv ⟨(prepass [userAnalysis, assistantFinal]).hasFunctionTools⟩ m =
            .ok texts ∧ pm.content = [textContent texts.flatten])
          (([userAnalysis, assistantFinal].enum.filter fun im =>
            !droppedByRule [userAnalysis, assistantFinal] im.1 im.2).map Prod.snd) msgs :=
  ⟨_, rfl, renderConversation_autoDrop_parses_back asciiTables byteVocabulary byteVocabulary_harmony toyEnv
    ⟨[userAnalysis, assistantFinal]⟩ none _ rfl rfl⟩

def jsonReply : Message := ⟨⟨roleAssistant, []⟩, [], [textContent (ascii "hi")], [], ascii "json"⟩

set_option maxRecDepth 10000 in
theorem hinted_parse_names_author :
    ∃ ts, byteEncoding.render toyEnv jsonReply = .ok ts ∧
      byteEncoding.parseMessagesFromCompletionTokens asciiTables
          (ts.drop (1 + (byteEncoding.bpe.encodeOrdinary roleAssistant).length)) (some roleAssistant) =
        .ok [⟨⟨roleAssistant, ascii "json"⟩, [], [textContent (ascii "hi")], [], ascii "json"⟩] :=
  ⟨_, rfl, rfl⟩

set_option maxRecDepth 10000 in
theorem renderConversation_parses_back_finalCall :
    ∃ r, byteEncoding.renderConversation toyEnv ⟨[finalCall]⟩ none = .ok r ∧
      ∃ blocks, r = blocks.flatten ∧
        List.Forall₂ (fun _ blk => ∃ h b t, blk = [tokStart] ++ h ++ [tokMessage] ++ b ++ [t] ∧ Framed h b t)
          (keptMessages (autoDropAnalysis none) [finalCall]) blocks ∧
        ∃ msgs, byteEncoding.parseMessagesFromCompletionTokens asciiTables r none = .ok msgs ∧
          List.Forall₂ (fun m pm => ∃ texts, messageTexts toyEnv ⟨(prepass [finalCall]).hasFunctionTools⟩ m = .ok texts ∧
            pm.content = [textContent texts.flatten]) (keptMessages (autoDropAnalysis none) [finalCall]) msgs :=
  ⟨_, rfl, renderConversation_parses_back asciiTables byteVocabulary byteVocabulary_harmony toyEnv ⟨[finalCall]⟩ none _ rfl⟩

end Harmony