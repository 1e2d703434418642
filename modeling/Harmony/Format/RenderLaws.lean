import Harmony.Format.Conversation
import Harmony.Tokenizer.RoundTrip

set_option autoImplicit false

namespace Harmony

-- The text a content item renders, or the error the content loop stops at.
def itemText (env : RenderEnv) (opts : RenderOptions) (c : Content) : Except ByteString ByteString :=
  if c.type = contentText then .ok c.text
  else if c.type = contentSystem then
    match c.system with
    | none => .error (ascii "nil SystemContent")
    | some sys => .ok (systemContentText env sys opts)
  else if c.type = contentDeveloper then
    match c.developer with
    | none => .error (ascii "nil DeveloperContent")
    | some dev => .ok (developerContentText env dev)
  else .error (ascii "unknown content type: " ++ c.type)

def itemTexts (env : RenderEnv) (opts : RenderOptions) : List Content → Except ByteString (List ByteString)
  | [] => .ok []
  | c :: cs =>
    match itemText env opts c with
    | .error err => .error err
    | .ok t => (itemTexts env opts cs).map (t :: ·)

-- What a message renders from: the texts of its content items, or the error both renderers stop at.
def messageTexts (env : RenderEnv) (opts : RenderOptions) (m : Message) : Except ByteString (List ByteString) :=
  if toolWithoutName m then .error (ascii "tool messages must have a name") else itemTexts env opts m.content

@[simp] theorem renderFormattingToken_start (out : List Rank) :
    renderFormattingToken "<|start|>" out = .ok (out ++ [idStart]) := rfl

@[simp] theorem renderFormattingToken_message (out : List Rank) :
    renderFormattingToken "<|message|>" out = .ok (out ++ [idMessage]) := rfl

@[simp] theorem renderFormattingToken_channel (out : List Rank) :
    renderFormattingToken "<|channel|>" out = .ok (out ++ [idChannel]) := rfl

@[simp] theorem renderFormattingToken_terminator (m : Message) (out : List Rank) :
    renderFormattingToken (if m.author.role = roleAssistant ∧ needsRecipient m then "<|call|>" else "<|end|>") out =
      .ok (out ++ [terminator m]) := by
  unfold terminator
  split_ifs <;> rfl

namespace Encoding

variable (e : Encoding) (env : RenderEnv) (opts : RenderOptions)

-- `<|start|> header <|message|> body terminator`: what either renderer appends for a message whose
-- content items render to `texts`, the two differing only in `header`.
def block (header : List Rank) (m : Message) (texts : List ByteString) : List Rank :=
  [idStart] ++ header ++ e.renderChannelAndType m [] ++ [idMessage] ++ (texts.map e.bpe.encodeOrdinary).flatten ++
    [terminator m]

theorem renderText_eq (text : ByteString) (out : List Rank) :
    e.renderText text out = out ++ e.bpe.encodeOrdinary text := by
  simp [renderText, CoreBPE.encodeIntoOrdinary, CoreBPE.encodeInto_eq, CoreBPE.encodeOrdinary]

theorem renderContentType_frame (ct : ByteString) (out : List Rank) :
    e.renderContentType ct out = out ++ e.renderContentType ct [] := by
  simp only [renderContentType, renderText_eq]
  split_ifs <;> simp

theorem renderChannelAndType_frame (m : Message) (out : List Rank) :
    e.renderChannelAndType m out = out ++ e.renderChannelAndType m [] := by
  have typed := renderContentType_frame e m.contentType
  unfold renderChannelAndType
  by_cases named : m.channel ≠ []
  · rw [if_pos named, if_pos named, renderText_eq, renderText_eq]
    by_cases typedHere : m.contentType ≠ []
    · rw [if_pos typedHere, if_pos typedHere, typed (_ ++ _), typed (_ ++ _)]
      simp
    · rw [if_neg typedHere, if_neg typedHere]
      simp
  · rw [if_neg named, if_neg named]
    by_cases typedHere : m.contentType ≠ []
    · rw [if_pos typedHere, if_pos typedHere, typed out]
    · rw [if_neg typedHere, if_neg typedHere, List.append_nil]

theorem renderHeaderJoined_frame (m : Message) (out : List Rank) :
    e.renderHeaderJoined m out = out ++ e.renderHeaderJoined m [] := by
  simp only [renderHeaderJoined, renderText_eq]
  split_ifs <;> simp

theorem renderHeaderPieces_frame (m : Message) (out : List Rank) :
    e.renderHeaderPieces m out = out ++ e.renderHeaderPieces m [] := by
  simp only [renderHeaderPieces, renderText_eq]
  split_ifs <;> simp

theorem renderContents_spec (cs : List Content) (out : List Rank) :
    (∃ texts, itemTexts env opts cs = .ok texts ∧
      e.renderContents env opts cs out = (out ++ (texts.map e.bpe.encodeOrdinary).flatten, none)) ∨
    (∃ err, itemTexts env opts cs = .error err ∧ (e.renderContents env opts cs out).2 = some err) := by
  induction cs generalizing out with
  | nil => exact .inl ⟨[], rfl, by simp [renderContents]⟩
  | cons c cs ih =>
    have step : ∀ t, itemText env opts c = .ok t →
        e.renderContents env opts (c :: cs) out = e.renderContents env opts cs (out ++ e.bpe.encodeOrdinary t) := by
      intro t item
      simp only [itemText] at item
      simp only [renderContents, renderSystemContent, renderDeveloperContent, renderText_eq]
      split_ifs at item ⊢ <;> (try split at item) <;> simp_all
    cases item : itemText env opts c with
    | error err =>
      refine .inr ⟨err, by simp [itemTexts, item], ?_⟩
      simp only [itemText] at item
      simp only [renderContents]
      split_ifs at item ⊢ <;> (try split at item) <;> simp_all
    | ok t =>
      rcases ih (out ++ e.bpe.encodeOrdinary t) with ⟨texts, rest, rendered⟩ | ⟨err, rest, failed⟩
      · refine .inl ⟨t :: texts, by simp [itemTexts, item, rest, Except.map], ?_⟩
        rw [step t item, rendered]
        simp
      · exact .inr ⟨err, by simp [itemTexts, item, rest, Except.map], by rw [step t item]; exact failed⟩

theorem renderMessageInto_ok {m : Message} {texts : List ByteString} (found : messageTexts env opts m = .ok texts)
    (out : List Rank) :
    e.renderMessageInto env opts m out = (out ++ e.block (e.renderHeaderJoined m []) m texts, none) := by
  unfold messageTexts at found
  split_ifs at found with named
  obtain ⟨texts', rest, rendered⟩ | ⟨err, rest, _⟩ := e.renderContents_spec env opts m.content
    (e.renderChannelAndType m (e.renderHeaderJoined m (out ++ [idStart])) ++ [idMessage])
  · obtain rfl : texts' = texts := by simpa [found] using rest.symm
    simp only [renderMessageInto, if_neg named, rendered, block]
    rw [renderChannelAndType_frame, renderHeaderJoined_frame]
    simp
  · simp [found] at rest

theorem renderMessageInto_error {m : Message} {err : ByteString} (failed : messageTexts env opts m = .error err)
    (out : List Rank) : (e.renderMessageInto env opts m out).2 = some err := by
  unfold messageTexts at failed
  split_ifs at failed with named
  · cases failed
    simp [renderMessageInto, named]
  · obtain ⟨_, rest, _⟩ | ⟨err', rest, stopped⟩ := e.renderContents_spec env opts m.content
      (e.renderChannelAndType m (e.renderHeaderJoined m (out ++ [idStart])) ++ [idMessage])
    · simp [failed] at rest
    · obtain rfl : err' = err := by simpa [failed] using rest.symm
      simp only [renderMessageInto, if_neg named]
      split <;> simp_all

theorem renderMessage_eq {m : Message} (named : ¬ toolWithoutName m) :
    e.renderMessage env opts m =
      match e.renderContents env opts m.content
          (e.renderChannelAndType m (e.renderHeaderPieces m [idStart]) ++ [idMessage]) with
      | (_, some err) => .error err
      | (out, none) => .ok (out ++ [terminator m]) := by
  have ended := renderFormattingToken_terminator m
  by_cases channel : m.channel ≠ []
  · simp only [renderMessage, renderChannelAndType, renderFormattingToken_start, renderFormattingToken_channel,
      renderFormattingToken_message, if_neg named, if_pos channel, bind, Except.bind, Except.map, pure,
      List.nil_append]
    split <;> simp_all [throw, throwThe, MonadExceptOf.throw]
  · simp only [renderMessage, renderChannelAndType, renderFormattingToken_start, renderFormattingToken_message,
      if_neg named, if_neg channel, bind, Except.bind, pure, Except.pure, List.nil_append]
    split <;> simp_all [throw, throwThe, MonadExceptOf.throw]

theorem renderMessage_ok {m : Message} {texts : List ByteString} (found : messageTexts env opts m = .ok texts) :
    e.renderMessage env opts m = .ok (e.block (e.renderHeaderPieces m []) m texts) := by
  unfold messageTexts at found
  split_ifs at found with named
  obtain ⟨texts', rest, rendered⟩ | ⟨err, rest, _⟩ := e.renderContents_spec env opts m.content
    (e.renderChannelAndType m (e.renderHeaderPieces m [idStart]) ++ [idMessage])
  · obtain rfl : texts' = texts := by simpa [found] using rest.symm
    rw [renderMessage_eq e env opts named, rendered, renderChannelAndType_frame, renderHeaderPieces_frame]
    simp [block]
  · simp [found] at rest

theorem renderMessage_error {m : Message} {err : ByteString} (failed : messageTexts env opts m = .error err) :
    e.renderMessage env opts m = .error err := by
  unfold messageTexts at failed
  split_ifs at failed with named
  · cases failed
    simp [renderMessage, named, bind, Except.bind, throw, throwThe, MonadExceptOf.throw]
  · obtain ⟨_, rest, _⟩ | ⟨err', rest, stopped⟩ := e.renderContents_spec env opts m.content
      (e.renderChannelAndType m (e.renderHeaderPieces m [idStart]) ++ [idMessage])
    · simp [failed] at rest
    · obtain rfl : err' = err := by simpa [failed] using rest.symm
      rw [renderMessage_eq e env opts named]
      split <;> simp_all

-- `r` is one block per message of `kept`, in order, each with the header `header` gives it.
def RendersAs (header : Message → List Rank) (kept : List Message) (r : List Rank) : Prop :=
  ∃ blocks : List (List Rank), r = blocks.flatten ∧
    List.Forall₂ (fun m blk => ∃ texts, messageTexts env opts m = .ok texts ∧ blk = e.block (header m) m texts)
      kept blocks

variable {e env opts}

theorem rendersAs_nil (header : Message → List Rank) : e.RendersAs env opts header [] [] :=
  ⟨[], rfl, .nil⟩

theorem RendersAs.cons {header : Message → List Rank} {m : Message} {ms : List Message} {texts : List ByteString}
    {rest : List Rank} (found : messageTexts env opts m = .ok texts) (tail : e.RendersAs env opts header ms rest) :
    e.RendersAs env opts header (m :: ms) (e.block (header m) m texts ++ rest) := by
  obtain ⟨blocks, rfl, each⟩ := tail
  exact ⟨_ :: blocks, rfl, .cons ⟨texts, found, rfl⟩ each⟩

theorem renderAllInto_ok {kept : List Message} {out r : List Rank} (ok : e.renderAllInto env opts kept out = .ok r) :
    ∃ rest, r = out ++ rest ∧ e.RendersAs env opts (fun m => e.renderHeaderJoined m []) kept rest := by
  induction kept generalizing out with
  | nil => exact ⟨[], by simpa [renderAllInto] using ok.symm, rendersAs_nil _⟩
  | cons m ms ih =>
    cases found : messageTexts env opts m with
    | error err =>
      have stopped := e.renderMessageInto_error env opts found out
      rcases into : e.renderMessageInto env opts m out with ⟨_, _ | _⟩ <;> simp_all [renderAllInto]
    | ok texts =>
      simp only [renderAllInto, e.renderMessageInto_ok env opts found] at ok
      obtain ⟨rest, rfl, rendered⟩ := ih ok
      exact ⟨_, by simp, rendered.cons found⟩

theorem mapM_renderMessage_ok {kept : List Message} {blocks : List (List Rank)}
    (ok : kept.mapM (e.renderMessage env opts) = .ok blocks) :
    e.RendersAs env opts (fun m => e.renderHeaderPieces m []) kept blocks.flatten := by
  induction kept generalizing blocks with
  | nil =>
    cases ok
    exact rendersAs_nil _
  | cons m ms ih =>
    rw [List.mapM_cons] at ok
    cases found : messageTexts env opts m with
    | error err => rw [e.renderMessage_error env opts found] at ok; cases ok
    | ok texts =>
      cases rest : ms.mapM (e.renderMessage env opts) with
      | error err => rw [e.renderMessage_ok env opts found, rest] at ok; cases ok
      | ok blocks' =>
        rw [e.renderMessage_ok env opts found, rest] at ok
        cases ok
        exact (ih rest).cons found

theorem renderAllParallel_ok {kept : List Message} {r : List Rank} (ok : e.renderAllParallel env opts kept = .ok r) :
    e.RendersAs env opts (fun m => e.renderHeaderPieces m []) kept r := by
  unfold renderAllParallel at ok
  cases mapped : kept.mapM (e.renderMessage env opts) with
  | error err => rw [mapped] at ok; cases ok
  | ok blocks =>
    rw [mapped] at ok
    cases ok
    exact mapM_renderMessage_ok mapped

theorem renderConversation_ok {conv : Conversation} {cfg : Option RenderConversationConfig} {r : List Rank}
    (ok : e.renderConversation env conv cfg = .ok r) :
    e.RendersAs env ⟨(prepass conv.messages).hasFunctionTools⟩ (fun m => e.renderHeaderJoined m [])
        (keptMessages (autoDropAnalysis cfg) conv.messages) r ∨
      e.RendersAs env ⟨(prepass conv.messages).hasFunctionTools⟩ (fun m => e.renderHeaderPieces m [])
        (keptMessages (autoDropAnalysis cfg) conv.messages) r := by
  unfold renderConversation at ok
  dsimp only at ok
  split_ifs at ok with empty parallel
  · cases ok
    rw [List.length_eq_zero.mp empty]
    exact .inl (rendersAs_nil _)
  · exact .inr (renderAllParallel_ok ok)
  · obtain ⟨rest, rfl, rendered⟩ := renderAllInto_ok ok
    exact .inl rendered

theorem renderAllInto_succeeds {kept : List Message}
    (found : ∀ m ∈ kept, ∃ texts, messageTexts env opts m = .ok texts) (out : List Rank) :
    ∃ r, e.renderAllInto env opts kept out = .ok r := by
  induction kept generalizing out with
  | nil => exact ⟨out, rfl⟩
  | cons m ms ih =>
    obtain ⟨texts, ok⟩ := found m (List.mem_cons_self m ms)
    simp only [renderAllInto, e.renderMessageInto_ok env opts ok]
    exact ih (fun m' mem => found m' (List.mem_cons_of_mem m mem)) _

theorem mapM_renderMessage_succeeds {kept : List Message}
    (found : ∀ m ∈ kept, ∃ texts, messageTexts env opts m = .ok texts) :
    ∃ blocks, kept.mapM (e.renderMessage env opts) = .ok blocks := by
  induction kept with
  | nil => exact ⟨[], rfl⟩
  | cons m ms ih =>
    obtain ⟨texts, ok⟩ := found m (List.mem_cons_self m ms)
    obtain ⟨blocks, rest⟩ := ih (fun m' mem => found m' (List.mem_cons_of_mem m mem))
    exact ⟨_, by rw [List.mapM_cons, e.renderMessage_ok env opts ok, rest]; rfl⟩

theorem renderConversation_succeeds {conv : Conversation} {cfg : Option RenderConversationConfig}
    (found : ∀ m ∈ keptMessages (autoDropAnalysis cfg) conv.messages,
      ∃ texts, messageTexts env ⟨(prepass conv.messages).hasFunctionTools⟩ m = .ok texts) :
    ∃ r, e.renderConversation env conv cfg = .ok r := by
  unfold renderConversation
  dsimp only
  split_ifs
  · exact ⟨[], rfl⟩
  · obtain ⟨blocks, mapped⟩ : ∃ blocks, (keptMessages (autoDropAnalysis cfg) conv.messages).mapM
        (e.renderMessage env ⟨(prepass conv.messages).hasFunctionTools⟩) = .ok blocks :=
      mapM_renderMessage_succeeds found
    exact ⟨blocks.flatten, by rw [renderAllParallel, mapped]; rfl⟩
  · exact renderAllInto_succeeds found []

theorem block_getLast? (header : List Rank) (m : Message) (texts : List ByteString) :
    (e.block header m texts).getLast? = some (terminator m) :=
  List.getLast?_concat _

theorem RendersAs.getLast? {header : Message → List Rank} {kept : List Message} {r : List Rank}
    (rendered : e.RendersAs env opts header kept r) : r.getLast? = kept.getLast?.map terminator := by
  obtain ⟨blocks, rfl, each⟩ := rendered
  induction each with
  | nil => rfl
  | @cons m blk ms blks made _ ih =>
    obtain ⟨texts, _, rfl⟩ := made
    cases ms with
    | nil =>
      cases ‹List.Forall₂ _ [] blks›
      simpa using block_getLast? _ m texts
    | cons m' ms' =>
      have later : blks.flatten ≠ [] := fun empty => by
        rw [empty, List.getLast?_eq_getLast _ (List.cons_ne_nil m' ms')] at ih
        cases ih
      rw [List.flatten_cons, List.getLast?_append_of_ne_nil _ later, ih]
      simp

end Encoding

namespace Encoding

variable (e : Encoding) (env : RenderEnv) (opts : RenderOptions)

theorem renderMessageInto_error_iff (m : Message) (out : List Rank) (err : ByteString) :
    (e.renderMessageInto env opts m out).2 = some err ↔ e.renderMessage env opts m = .error err := by
  cases found : messageTexts env opts m with
  | error err' => simp [e.renderMessageInto_error env opts found, e.renderMessage_error env opts found]
  | ok texts => simp [e.renderMessageInto_ok env opts found, e.renderMessage_ok env opts found]

theorem renderHeaderJoined_eq_pieces {m : Message} (single : m.author.role = roleTool ∨ m.author.name = [])
    (direct : ¬ needsRecipient m) (out : List Rank) : e.renderHeaderJoined m out = e.renderHeaderPieces m out := by
  unfold renderHeaderJoined renderHeaderPieces
  split_ifs <;> simp_all

theorem renderMessageInto_eq_renderMessage {m : Message} (single : m.author.role = roleTool ∨ m.author.name = [])
    (direct : ¬ needsRecipient m) {toks : List Rank} (ok : e.renderMessage env opts m = .ok toks) (out : List Rank) :
    e.renderMessageInto env opts m out = (out ++ toks, none) := by
  cases found : messageTexts env opts m with
  | error err => simp [e.renderMessage_error env opts found] at ok
  | ok texts =>
    rw [e.renderMessage_ok env opts found, Except.ok.injEq] at ok
    rw [e.renderMessageInto_ok env opts found, ← ok, e.renderHeaderJoined_eq_pieces single direct]

end Encoding

def colonVocabulary : List (ByteString × Rank) := byteVocabulary ++ [(ascii ":a", 256)]

def toyEncoding : Encoding := gptOss asciiTables colonVocabulary

def toyEnv : RenderEnv := ⟨true, id, fun _ => none⟩

def namedAssistant : Message := ⟨⟨roleAssistant, ascii "a"⟩, [], [], [], []⟩

set_option maxRecDepth 10000 in
theorem render_ne_renderConversation :
    toyEncoding.render toyEnv namedAssistant ≠ toyEncoding.renderConversation toyEnv ⟨[namedAssistant]⟩ none := by
  have pieces : toyEncoding.render toyEnv namedAssistant =
      .ok [200006, 97, 115, 115, 105, 115, 116, 97, 110, 116, 58, 97, 200008, 200007] := rfl
  have joined : toyEncoding.renderConversation toyEnv ⟨[namedAssistant]⟩ none =
      .ok [200006, 97, 115, 115, 105, 115, 116, 97, 110, 116, 256, 200008, 200007] := rfl
  rw [pieces, joined, Ne, Except.ok.injEq]
  decide

end Harmony
