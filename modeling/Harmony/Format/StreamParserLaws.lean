import Harmony.Format.StreamParser

set_option autoImplicit false

namespace Harmony

namespace StreamParser

variable {e : Encoding} {U : UnicodeTables}

theorem finalizeMessage_tokens (p : StreamParser) : (finalizeMessage e p).1.tokens = p.tokens := by
  unfold finalizeMessage
  split
  · rfl
  · split <;> rfl

theorem process_tokens (p : StreamParser) (t : Rank) : (process e U p t).1.tokens = p.tokens ++ [t] := by
  cases state : p.state <;> simp only [process, state]
  case expectStart => split <;> rfl
  case header =>
    split_ifs
    · rfl
    · split <;> rfl
    · rfl
  case content =>
    split_ifs
    · split <;> rename_i finalized <;>
        simpa [finalizeMessage_tokens] using (congrArg (fun r => r.1.tokens) finalized).symm
    · split <;> rfl

theorem process_start {p : StreamParser} (idle : p.state = .expectStart) :
    process e U p tokStart = ({ p with tokens := p.tokens ++ [tokStart], headerToks := [], state := .header }, none) := by
  simp [process, idle]

theorem process_header {p : StreamParser} (collecting : p.state = .header) {t : Rank} (notStart : t ≠ tokStart)
    (notMessage : t ≠ tokMessage) :
    process e U p t = ({ p with tokens := p.tokens ++ [t], headerToks := p.headerToks ++ [t] }, none) := by
  simp [process, collecting, notStart, notMessage]

theorem process_message {p : StreamParser} (collecting : p.state = .header) {hdr : ParsedHeader}
    (parsed : parseHeaderFromTokens e U p.nextRole p.headerToks = .ok hdr) :
    process e U p tokMessage =
      ({ p with tokens := p.tokens ++ [tokMessage], nextRole := none, contentToks := [], state := .content,
                messages := p.messages ++ [⟨hdr.author, hdr.recipient, [], hdr.channel, hdr.contentType⟩] }, none) := by
  have : tokMessage ≠ tokStart := by decide
  simp [process, collecting, this, parsed]

theorem process_content {p : StreamParser} (reading : p.state = .content) {t : Rank} (body : t ∉ stopAll)
    {delta : ByteString} (decoded : e.bpe.decodeBytesInto [] [t] = .ok delta) :
    process e U p t =
      ({ p with tokens := p.tokens ++ [t], contentToks := p.contentToks ++ [t], lastDeltaBytes := delta }, none) := by
  simp [process, reading, body, decoded]

theorem modify_last {α : Type} (ms : List α) (m : α) (f : α → α) : (ms ++ [m]).modify f ms.length = ms ++ [f m] := by
  induction ms with
  | nil => rfl
  | cons x xs ih => simpa [List.modify] using ih

theorem process_stop {p : StreamParser} (reading : p.state = .content) {t : Rank} (stop : t ∈ stopAll)
    {ms : List Message} {m : Message} (last : p.messages = ms ++ [m]) {text : ByteString}
    (decoded : e.bpe.decodeUTF8 p.contentToks = .ok text) :
    process e U p t =
      ({ p with tokens := p.tokens ++ [t], messages := ms ++ [{ m with content := [textContent text] }],
                headerToks := [], contentToks := [], state := .expectStart }, none) := by
  simp [process, reading, stop, finalizeMessage, last, decoded, modify_last]

theorem processAll_header (p : StreamParser) (collecting : p.state = .header) (h : List Rank)
    (free : ∀ t ∈ h, t ≠ tokStart ∧ t ≠ tokMessage) (rest : List Rank) :
    processAll e U p (h ++ rest) =
      processAll e U { p with tokens := p.tokens ++ h, headerToks := p.headerToks ++ h } rest := by
  induction h generalizing p with
  | nil => simp
  | cons t ts ih =>
    have first := free t (List.mem_cons_self _ _)
    rw [List.cons_append, processAll, process_header collecting first.1 first.2]
    dsimp only
    rw [ih { p with tokens := p.tokens ++ [t], headerToks := p.headerToks ++ [t] } collecting
      fun x mem => free x (List.mem_cons_of_mem _ mem)]
    simp

theorem processAll_body (p : StreamParser) (reading : p.state = .content) (b : List Rank)
    (free : ∀ t ∈ b, t ∉ stopAll ∧ ∃ v, e.bpe.decodeBytesInto [] [t] = .ok v) (rest : List Rank) :
    ∃ delta, processAll e U p (b ++ rest) =
      processAll e U { p with tokens := p.tokens ++ b, contentToks := p.contentToks ++ b, lastDeltaBytes := delta } rest := by
  induction b generalizing p with
  | nil => exact ⟨p.lastDeltaBytes, by simp⟩
  | cons t ts ih =>
    obtain ⟨body, delta, decoded⟩ := free t (List.mem_cons_self _ _)
    rw [List.cons_append, processAll, process_content reading body decoded]
    dsimp only
    obtain ⟨delta', run⟩ :=
      ih { p with tokens := p.tokens ++ [t], contentToks := p.contentToks ++ [t], lastDeltaBytes := delta }
        reading fun x mem => free x (List.mem_cons_of_mem _ mem)
    exact ⟨delta', by rw [run]; simp⟩

-- What the parser holds between two messages.
structure Between (p : StreamParser) (msgs : List Message) : Prop where
  idle : p.state = .expectStart
  messages : p.messages = msgs
  unhinted : p.nextRole = none

def parsedMessage (hdr : ParsedHeader) (text : ByteString) : Message :=
  ⟨hdr.author, hdr.recipient, [textContent text], hdr.channel, hdr.contentType⟩

variable (e U) in
-- `blk` is `<|start|> h <|message|> b t`, which the parser reads as the message `pm`.
def ReadsAs (blk : List Rank) (pm : Message) : Prop :=
  ∃ h b : List Rank, ∃ t : Rank, ∃ hs text : ByteString,
    blk = [tokStart] ++ h ++ [tokMessage] ++ b ++ [t] ∧ (∀ x ∈ h, x ≠ tokStart ∧ x ≠ tokMessage) ∧
      e.bpe.decodeUTF8 h = .ok hs ∧ (∀ x ∈ b, x ∉ stopAll ∧ ∃ v, e.bpe.decodeBytesInto [] [x] = .ok v) ∧
      e.bpe.decodeUTF8 b = .ok text ∧ t ∈ stopAll ∧ pm = parsedMessage (parseHeaderText U none hs) text

theorem processAll_content (p : StreamParser) (ms : List Message) (m : Message) (reading : p.state = .content)
    (last : p.messages = ms ++ [m]) (unhinted : p.nextRole = none) (fresh : p.contentToks = []) {b : List Rank}
    (bodyFree : ∀ x ∈ b, x ∉ stopAll ∧ ∃ v, e.bpe.decodeBytesInto [] [x] = .ok v) {text : ByteString}
    (bodyText : e.bpe.decodeUTF8 b = .ok text) {t : Rank} (stop : t ∈ stopAll) (rest : List Rank) :
    ∃ p', Between p' (ms ++ [{ m with content := [textContent text] }]) ∧
      processAll e U p (b ++ t :: rest) = processAll e U p' rest := by
  obtain ⟨delta, run⟩ := processAll_body p reading b bodyFree (t :: rest)
  set q : StreamParser :=
    { p with tokens := p.tokens ++ b, contentToks := p.contentToks ++ b, lastDeltaBytes := delta }
  rw [run, processAll, process_stop (show q.state = .content from reading) stop
    (show q.messages = ms ++ [m] from last) (show e.bpe.decodeUTF8 q.contentToks = .ok text by simpa [q, fresh] using bodyText)]
  refine ⟨_, ?_, rfl⟩
  exact ⟨rfl, rfl, unhinted⟩

theorem processAll_block {p : StreamParser} {msgs : List Message} (between : Between p msgs) {blk : List Rank}
    {pm : Message} (reads : ReadsAs e U blk pm) (rest : List Rank) :
    ∃ p', Between p' (msgs ++ [pm]) ∧ processAll e U p (blk ++ rest) = processAll e U p' rest := by
  obtain ⟨h, b, t, hs, text, shaped, headerFree, headerText, bodyFree, bodyText, stop, made⟩ := reads
  subst shaped made
  have parsed : parseHeaderFromTokens e U p.nextRole ([] ++ h) = .ok (parseHeaderText U none hs) := by
    simp [parseHeaderFromTokens, between.unhinted, headerText, bind, Except.bind, pure, Except.pure]
  generalize parseHeaderText U none hs = hdr at parsed ⊢
  have shape : [tokStart] ++ h ++ [tokMessage] ++ b ++ [t] ++ rest =
      tokStart :: (h ++ tokMessage :: (b ++ t :: rest)) := by
    simp
  rw [shape, processAll, process_start between.idle]
  dsimp only
  rw [processAll_header _ rfl h headerFree, processAll]
  rw [process_message rfl parsed]
  dsimp only
  rw [between.messages]
  exact processAll_content _ msgs ⟨_, _, [], _, _⟩ rfl rfl rfl rfl bodyFree
    bodyText stop rest

theorem processAll_blocks {p : StreamParser} {msgs : List Message} (between : Between p msgs)
    {blocks : List (List Rank)} {pms : List Message} (reads : List.Forall₂ (ReadsAs e U) blocks pms) :
    ∃ p', Between p' (msgs ++ pms) ∧ processAll e U p blocks.flatten = .ok p' := by
  induction reads generalizing p msgs with
  | nil => exact ⟨p, by simpa using between, rfl⟩
  | cons first _ ih =>
    obtain ⟨p', between', run⟩ := processAll_block between first _
    obtain ⟨p'', between'', run'⟩ := ih between'
    exact ⟨p'', by simpa using between'', by rw [List.flatten_cons, run, run']⟩

theorem parseMessages_of_readsAs {blocks : List (List Rank)} {pms : List Message}
    (reads : List.Forall₂ (ReadsAs e U) blocks pms) :
    e.parseMessagesFromCompletionTokens U blocks.flatten none = .ok pms := by
  have start : Between (newStreamParser none) [] := ⟨rfl, rfl, rfl⟩
  obtain ⟨p, between, run⟩ := processAll_blocks start reads
  unfold Encoding.parseMessagesFromCompletionTokens
  rw [run]
  simp [processEOS, between.idle, between.messages, bind, Except.bind, pure, Except.pure]

end StreamParser

def Encoding.Knows (e : Encoding) (t : Rank) : Prop := (e.bpe.dec t).isSome ∨ (e.bpe.specialDec t).isSome

section Stated

variable (e : Encoding)

def StatedHeader (hs : List Rank) : Prop := ∀ x ∈ hs, e.Knows x ∧ x ≠ tokStart ∧ x ≠ tokMessage

def StatedBody (cs : List Rank) : Prop := ∀ x ∈ cs, e.Knows x ∧ x ∉ stopAll

-- `S h* M c* E`
def StatedFrame (f : List Rank) : Prop :=
  ∃ hs cs : List Rank, ∃ t : Rank,
    f = [tokStart] ++ hs ++ [tokMessage] ++ cs ++ [t] ∧ StatedHeader e hs ∧ StatedBody e cs ∧ t ∈ stopAll

-- `(S g* | S h* M c*)?`
def StatedTail (ts : List Rank) : Prop :=
  ts = [] ∨ (∃ gs, ts = tokStart :: gs ∧ ∀ g ∈ gs, g ≠ tokStart ∧ g ≠ tokMessage) ∨
    ∃ hs cs, ts = [tokStart] ++ hs ++ [tokMessage] ++ cs ∧ StatedHeader e hs ∧ StatedBody e cs

def StatedLanguage (ts : List Rank) : Prop :=
  ∃ (frames : List (List Rank)) (tail : List Rank),
    ts = frames.flatten ++ tail ∧ (∀ f ∈ frames, StatedFrame e f) ∧ StatedTail e tail

variable {e}

theorem statedHeader_not_start {hs more rest : List Rank} (header : StatedHeader e hs)
    (shape : hs ++ tokMessage :: more = tokStart :: rest) : False := by
  cases hs with
  | nil => cases (List.cons.inj shape).1
  | cons x xs =>
    obtain ⟨rfl, -⟩ := List.cons.inj shape
    exact (header _ (List.mem_cons_self _ _)).2.1 rfl

theorem not_statedLanguage_start_start (rest : List Rank) : ¬ StatedLanguage e (tokStart :: tokStart :: rest) := by
  rintro ⟨frames, tail, shape, framed, ended⟩
  cases frames with
  | nil =>
    rcases ended with rfl | ⟨gs, rfl, loose⟩ | ⟨hs, cs, rfl, header, -⟩
    · cases shape
    · obtain ⟨-, rfl⟩ := List.cons.inj shape
      exact (loose _ (List.mem_cons_self _ _)).1 rfl
    · exact statedHeader_not_start header (by simpa using shape.symm)
  | cons f fs =>
    obtain ⟨hs, cs, t, rfl, header, -, -⟩ := framed f (List.mem_cons_self _ _)
    exact statedHeader_not_start header (by simpa using shape.symm)

end Stated

theorem unhinted_parser_accepts_start_in_header (e : Encoding) (U : UnicodeTables) :
    e.parseMessagesFromCompletionTokens U [tokStart, tokStart, tokMessage, tokEnd] none =
        .ok [⟨⟨roleTool, []⟩, [], [textContent []], [], []⟩] ∧
      ¬ StatedLanguage e [tokStart, tokStart, tokMessage, tokEnd] :=
  ⟨rfl, not_statedLanguage_start_start _⟩

end Harmony
