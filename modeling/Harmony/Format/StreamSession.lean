import Harmony.Format.StreamParserRuns
import Harmony.Format.HeaderFields

set_option autoImplicit false

namespace Harmony

namespace StreamParser

inductive Call where
  | process (token : Rank)
  | processEOS
deriving DecidableEq, Repr

def Call.token : Call → Option Rank
  | .process t => some t
  | .processEOS => none

variable (e : Encoding) (U : UnicodeTables)

def Call.apply (p : StreamParser) : Call → StreamParser × Option ByteString
  | .process t => StreamParser.process e U p t
  | .processEOS => StreamParser.processEOS e p

-- The parser after a client's calls, whatever each of them returned.
def calls (p : StreamParser) : List Call → StreamParser
  | [] => p
  | c :: cs => calls (c.apply e U p).1 cs

-- The parsers a client reaches from `NewStreamParser(enc, hint)`.
def Reachable (hint : Option Role) (p : StreamParser) : Prop := ∃ cs, calls e U (newStreamParser hint) cs = p

theorem calls_append (p : StreamParser) (cs ds : List Call) : calls e U p (cs ++ ds) = calls e U (calls e U p cs) ds := by
  induction cs generalizing p with
  | nil => rfl
  | cons c cs ih => exact ih _

variable {e U}

theorem calls_induction (P : StreamParser → Prop) (step : ∀ p (c : Call), P p → P (c.apply e U p).1) {p : StreamParser}
    (start : P p) (cs : List Call) : P (calls e U p cs) := by
  induction cs generalizing p with
  | nil => exact start
  | cons c cs ih => exact ih (step p c start)

theorem Reachable.calls {hint : Option Role} {p : StreamParser} (reach : Reachable e U hint p) (cs : List Call) :
    Reachable e U hint (calls e U p cs) := by
  obtain ⟨pre, rfl⟩ := reach
  exact ⟨pre ++ cs, calls_append e U _ pre cs⟩

theorem parseHeaderFromTokens_clean {r : Option Role} {hs : List Rank} {hdr : ParsedHeader}
    (parsed : parseHeaderFromTokens e U r hs = .ok hdr) : CleanHeader hdr.recipient hdr.channel hdr.contentType := by
  rw [parseHeaderFromTokens] at parsed
  cases decoded : e.bpe.decodeUTF8 hs with
  | error err => simp [decoded, bind, Except.bind] at parsed
  | ok s =>
    simp only [decoded, bind, Except.bind, pure, Except.pure, Except.ok.injEq] at parsed
    exact parsed ▸ parseHeaderText_clean U r s

-- What `finalizeMessage` makes of the messages once the body decodes to `text`.
def finalizeLast (ms : List Message) (text : ByteString) : List Message :=
  ms.modify (fun m => { m with content := [textContent text] }) (ms.length - 1)

theorem finalizeLast_concat (ms : List Message) (m : Message) (text : ByteString) :
    finalizeLast (ms ++ [m]) text = ms ++ [{ m with content := [textContent text] }] := by
  simpa [finalizeLast] using modify_last ms m _

inductive Moves (p q : StreamParser) : Prop
  | keep : q.state = p.state → q.nextRole = p.nextRole → q.messages = p.messages → Moves p q
  | start : p.state = .expectStart → q.state = .header → q.nextRole = p.nextRole → q.messages = p.messages →
      Moves p q
  | message (hdr : ParsedHeader) : p.state = .header → q.state = .content → q.nextRole = none →
      CleanHeader hdr.recipient hdr.channel hdr.contentType →
      q.messages = p.messages ++ [⟨hdr.author, hdr.recipient, [], hdr.channel, hdr.contentType⟩] → Moves p q
  | finalize (text : ByteString) : p.state = .content → (q.state = .expectStart ∨ q.state = .content) →
      q.nextRole = p.nextRole → q.messages = finalizeLast p.messages text → Moves p q

theorem Moves.congr {p p' q : StreamParser} (moves : Moves p' q) (state : p'.state = p.state)
    (nextRole : p'.nextRole = p.nextRole) (messages : p'.messages = p.messages) : Moves p q := by
  cases moves with
  | keep s r m => exact .keep (s.trans state) (r.trans nextRole) (m.trans messages)
  | start idle s r m => exact .start (state ▸ idle) s (r.trans nextRole) (m.trans messages)
  | message hdr collecting s r clean m => exact .message hdr (state ▸ collecting) s r clean (messages ▸ m)
  | finalize text reading s r m => exact .finalize text (state ▸ reading) s (r.trans nextRole) (messages ▸ m)

theorem finalizeMessage_moves {p : StreamParser} (reading : p.state = .content) :
    Moves p (finalizeMessage e p).1 ∧
      ((finalizeMessage e p).2 = none → Moves p { (finalizeMessage e p).1 with state := .expectStart }) := by
  unfold finalizeMessage
  split
  · have empty : p.messages = [] := List.eq_nil_of_length_eq_zero ‹_›
    exact ⟨.keep rfl rfl rfl, fun _ => .finalize [] reading (.inl rfl) rfl (by rw [empty]; rfl)⟩
  · split
    · exact ⟨.keep rfl rfl rfl, nofun⟩
    · exact ⟨.finalize _ reading (.inr reading) rfl rfl, fun _ => .finalize _ reading (.inl rfl) rfl rfl⟩

theorem process_moves (p : StreamParser) (t : Rank) : Moves p (process e U p t).1 := by
  cases state : p.state <;> simp only [process, state]
  case expectStart =>
    split_ifs
    · exact .start state rfl rfl rfl
    · exact .keep state.symm rfl rfl
  case header =>
    split_ifs
    · exact .keep state.symm rfl rfl
    · split
      · exact .keep state.symm rfl rfl
      · exact .message _ state rfl rfl (parseHeaderFromTokens_clean ‹_›) rfl
    · exact .keep state.symm rfl rfl
  case content =>
    have moves := finalizeMessage_moves (e := e) (p := { p with tokens := p.tokens ++ [t], state := .content }) rfl
    split_ifs
    · split <;> rename_i finalized <;> rw [finalized] at moves
      · exact moves.1.congr state.symm rfl rfl
      · exact (moves.2 rfl).congr state.symm rfl rfl
    · split <;> exact .keep state.symm rfl rfl

theorem processEOS_moves (p : StreamParser) : Moves p (processEOS e p).1 := by
  unfold processEOS
  split_ifs with reading
  · exact (finalizeMessage_moves reading).1
  · exact .keep rfl rfl rfl

theorem Call.apply_moves (p : StreamParser) : ∀ c : Call, Moves p (c.apply e U p).1
  | .process t => process_moves p t
  | .processEOS => processEOS_moves p

theorem Call.apply_tokens (p : StreamParser) : ∀ c : Call, (c.apply e U p).1.tokens = p.tokens ++ c.token.toList
  | .process t => process_tokens p t
  | .processEOS => by
    show (StreamParser.processEOS e p).1.tokens = p.tokens ++ []
    unfold StreamParser.processEOS
    split_ifs
    · exact (finalizeMessage_tokens p).trans (List.append_nil _).symm
    · exact (List.append_nil _).symm

def Finalized (m : Message) : Prop := ∃ text, m.content = [textContent text]

-- What holds of every parser a client reaches from `NewStreamParser(enc, hint)`.
structure Consistent (hint : Option Role) (p : StreamParser) : Prop where
  unread : p.messages = [] → p.nextRole = hint
  read : p.messages ≠ [] → p.nextRole = none
  hinted : hint.isSome → p.messages = [] → p.state = .header
  reading : p.state = .content → p.messages ≠ []
  finalized : ∀ m ∈ p.messages.dropLast, Finalized m
  settled : p.state ≠ .content → ∀ m ∈ p.messages, Finalized m
  last : ∀ m ∈ p.messages.getLast?, m.content = [] ∨ Finalized m

section Consistent

variable {hint : Option Role}

theorem consistent_new (hint : Option Role) : Consistent hint (newStreamParser hint) where
  unread _ := rfl
  read held := absurd rfl held
  hinted hinted _ := by simp [newStreamParser, hinted]
  reading := by cases hint <;> simp [newStreamParser]
  finalized := by simp [newStreamParser]
  settled _ := by simp [newStreamParser]
  last := by simp [newStreamParser]

theorem Consistent.moves {p q : StreamParser} (inv : Consistent hint p) (moves : Moves p q) : Consistent hint q := by
  cases moves with
  | keep state nextRole messages =>
    exact ⟨by rw [messages, nextRole]; exact inv.unread, by rw [messages, nextRole]; exact inv.read,
      by rw [messages, state]; exact inv.hinted, by rw [messages, state]; exact inv.reading,
      by rw [messages]; exact inv.finalized, by rw [messages, state]; exact inv.settled,
      by rw [messages]; exact inv.last⟩
  | start idle state nextRole messages =>
    have done := inv.settled (by rw [idle]; decide)
    exact ⟨by rw [messages, nextRole]; exact inv.unread, by rw [messages, nextRole]; exact inv.read,
      fun _ _ => state, by rw [state]; nofun, by rw [messages]; exact inv.finalized, fun _ => messages ▸ done,
      by rw [messages]; exact inv.last⟩
  | message hdr collecting state nextRole _ messages =>
    have done := inv.settled (by rw [collecting]; decide)
    refine ⟨fun empty => by simp [messages] at empty, fun _ => nextRole, fun _ empty => by simp [messages] at empty,
      fun _ => by simp [messages], by simpa [messages] using done, by rw [state]; nofun, by simp [messages]⟩
  | finalize text reading state nextRole messages =>
    obtain ⟨ms, m, held⟩ := List.eq_nil_or_concat p.messages |>.resolve_left (inv.reading reading)
    rw [List.concat_eq_append] at held
    have before : ∀ x ∈ ms, Finalized x := by simpa [held] using inv.finalized
    rw [held, finalizeLast_concat] at messages
    refine ⟨fun empty => by simp [messages] at empty, fun _ => by rw [nextRole, inv.read (by simp [held])],
      fun _ empty => by simp [messages] at empty, fun _ => by simp [messages], by simpa [messages] using before,
      fun _ x mem => ?_, by simp [messages, Finalized]⟩
    rw [messages, List.mem_append, List.mem_singleton] at mem
    exact mem.elim (before x) fun same => ⟨text, by rw [same]⟩

theorem Consistent.call {p : StreamParser} (inv : Consistent hint p) (c : Call) : Consistent hint (c.apply e U p).1 :=
  inv.moves (c.apply_moves p)

theorem consistent_of_reachable {p : StreamParser} (reach : Reachable e U hint p) : Consistent hint p := by
  obtain ⟨cs, rfl⟩ := reach
  exact calls_induction _ (fun _ c inv => inv.call c) (consistent_new hint) cs

end Consistent

def userHiCalls : List Call := userHi.map .process

def hintedReading : StreamParser :=
  calls (gptOss asciiTables byteVocabulary) asciiTables (newStreamParser (some roleUser)) [.process tokMessage]

theorem consistent_of_reachable_userHi :
    Reachable (gptOss asciiTables byteVocabulary) asciiTables none
        (calls (gptOss asciiTables byteVocabulary) asciiTables (newStreamParser none) userHiCalls) ∧
      Consistent none (calls (gptOss asciiTables byteVocabulary) asciiTables (newStreamParser none) userHiCalls) :=
  ⟨⟨_, rfl⟩, consistent_of_reachable ⟨_, rfl⟩⟩

def heading (m : Message) : Author × ByteString × ByteString × ByteString :=
  (m.author, m.recipient, m.channel, m.contentType)

-- `Messages()` grows: the messages before the last are kept as they are, and every message keeps its header.
structure Grows (ms ms' : List Message) : Prop where
  kept : ms.dropLast <+: ms'
  headings : ms.map heading <+: ms'.map heading

theorem Grows.refl (ms : List Message) : Grows ms ms := ⟨List.dropLast_prefix ms, List.prefix_refl _⟩

theorem Grows.trans {a b c : List Message} (ab : Grows a b) (bc : Grows b c) : Grows a c where
  kept := by
    have shorter : a.dropLast.length ≤ b.dropLast.length := by
      have := ab.headings.length_le
      simp only [List.length_map] at this
      simp only [List.length_dropLast]
      omega
    exact (List.prefix_of_prefix_length_le ab.kept (List.dropLast_prefix b) shorter).trans bc.kept
  headings := ab.headings.trans bc.headings

theorem Moves.grows {p q : StreamParser} (moves : Moves p q) : Grows p.messages q.messages := by
  cases moves with
  | keep _ _ messages => rw [messages]; exact .refl _
  | start _ _ _ messages => rw [messages]; exact .refl _
  | message hdr _ _ _ _ messages =>
    rw [messages]
    exact ⟨(List.dropLast_prefix _).trans (List.prefix_append _ _), by simp⟩
  | finalize text _ _ _ messages =>
    rw [messages]
    rcases List.eq_nil_or_concat p.messages with empty | ⟨ms, m, held⟩
    · rw [empty]; exact .refl []
    · rw [held, List.concat_eq_append, finalizeLast_concat]
      exact ⟨by simp, by simp [heading]⟩

theorem calls_tokens (p : StreamParser) (cs : List Call) :
    (calls e U p cs).tokens = p.tokens ++ cs.filterMap Call.token := by
  induction cs generalizing p with
  | nil => simp [calls]
  | cons c cs ih => rw [calls, ih, Call.apply_tokens]; cases c <;> simp [Call.token]

theorem calls_grows (p : StreamParser) (cs : List Call) : Grows p.messages (calls e U p cs).messages := by
  induction cs generalizing p with
  | nil => exact .refl _
  | cons c cs ih => exact (c.apply_moves p).grows.trans (ih _)

theorem calls_logs (p : StreamParser) (cs : List Call) :
    (calls e U p cs).tokens = p.tokens ++ cs.filterMap Call.token ∧ Grows p.messages (calls e U p cs).messages :=
  ⟨calls_tokens p cs, calls_grows p cs⟩

section Getters

variable {hint : Option Role}

theorem currentRole_of_reading {p : StreamParser} (reading : p.state = .content) :
    currentRole p = p.messages.getLast?.map (·.author.role) := by
  simp [currentRole, reading]

theorem currentRole_of_other {p : StreamParser} (other : p.state ≠ .content) : currentRole p = p.nextRole := by
  unfold currentRole
  split <;> simp_all

theorem currentField_of_reading {p : StreamParser} (field : Message → ByteString) (reading : p.state = .content)
    {ms : List Message} {m : Message} (held : p.messages = ms ++ [m]) : currentField field p = field m := by
  simp [currentField, reading, held]

theorem currentRole_of_reachable {p : StreamParser} (reach : Reachable e U hint p) :
    (p.state = .content → ∃ m ∈ p.messages.getLast?, currentRole p = some m.author.role) ∧
      (p.messages = [] → currentRole p = hint) ∧ (p.state ≠ .content → p.messages ≠ [] → currentRole p = none) := by
  have inv := consistent_of_reachable reach
  refine ⟨fun reading => ?_, fun empty => ?_, fun other held => ?_⟩
  · obtain ⟨m, last⟩ := Option.isSome_iff_exists.mp (List.getLast?_isSome.mpr (inv.reading reading))
    exact ⟨m, last, by rw [currentRole_of_reading reading, last]; rfl⟩
  · rw [currentRole_of_other fun reading => inv.reading reading empty, inv.unread empty]
  · rw [currentRole_of_other other, inv.read held]

theorem currentRole_of_reachable_hinted :
    Reachable (gptOss asciiTables byteVocabulary) asciiTables (some roleUser) hintedReading ∧
      (hintedReading.state = .content →
        ∃ m ∈ hintedReading.messages.getLast?, currentRole hintedReading = some m.author.role) ∧
      (hintedReading.messages = [] → currentRole hintedReading = some roleUser) ∧
      (hintedReading.state ≠ .content → hintedReading.messages ≠ [] → currentRole hintedReading = none) :=
  ⟨⟨_, rfl⟩, currentRole_of_reachable ⟨_, rfl⟩⟩

theorem currentHeader_final {p : StreamParser} (reach : Reachable e U hint p) (reading : p.state = .content)
    (cs : List Call) :
    ∃ m ∈ (calls e U p cs).messages[p.messages.length - 1]?, currentRole p = some m.author.role ∧
      currentRecipient p = m.recipient ∧ currentChannel p = m.channel ∧ currentContentType p = m.contentType := by
  obtain ⟨ms, m, held⟩ :=
    List.eq_nil_or_concat p.messages |>.resolve_left ((consistent_of_reachable reach).reading reading)
  rw [List.concat_eq_append] at held
  obtain ⟨rest, extended⟩ := (calls_grows (e := e) (U := U) p cs).headings
  have atPlace : ((calls e U p cs).messages[ms.length]?).map heading = some (heading m) := by
    rw [← List.getElem?_map, ← extended, held, List.map_append, List.append_assoc,
      List.getElem?_append_right (by simp)]
    simp
  obtain ⟨m', found, same⟩ := Option.map_eq_some'.mp atPlace
  simp only [heading, Prod.mk.injEq] at same
  refine ⟨m', by simpa [held] using found, ?_⟩
  rw [currentRole_of_reading reading, held, List.getLast?_concat, currentRecipient, currentChannel,
    currentContentType, currentField_of_reading _ reading held, currentField_of_reading _ reading held,
    currentField_of_reading _ reading held]
  simp [same]

theorem currentHeader_final_hinted :
    Reachable (gptOss asciiTables byteVocabulary) asciiTables (some roleUser) hintedReading ∧
      hintedReading.state = .content ∧
      ∃ m ∈ (calls (gptOss asciiTables byteVocabulary) asciiTables hintedReading userHiCalls).messages[
          hintedReading.messages.length - 1]?,
        currentRole hintedReading = some m.author.role ∧ currentRecipient hintedReading = m.recipient ∧
          currentChannel hintedReading = m.channel ∧ currentContentType hintedReading = m.contentType :=
  have reach : Reachable (gptOss asciiTables byteVocabulary) asciiTables (some roleUser) hintedReading := ⟨_, rfl⟩
  have reading : hintedReading.state = .content := rfl
  ⟨reach, reading, currentHeader_final reach reading userHiCalls⟩

end Getters

theorem decodeUTF8_error_iff {b : CoreBPE} {ts : List Rank} :
    (∃ err, b.decodeUTF8 ts = .error err) ↔ ∃ x ∈ ts, b.idBytes x = none := by
  rw [CoreBPE.decodeUTF8, CoreBPE.decodeBytes, CoreBPE.decodeBytesInto_eq]
  split_ifs with all <;> simp_all [Option.isSome_iff_ne_none]

theorem decodeBytesInto_single (b : CoreBPE) (t : Rank) :
    b.decodeBytesInto [] [t] =
      match b.idBytes t with
      | some bs => .ok bs
      | none => .error (ascii "invalid token for decoding") := by
  rw [CoreBPE.decodeBytesInto_eq]
  cases found : b.idBytes t <;> simp [found]

theorem process_body {p : StreamParser} (reading : p.state = .content) {t : Rank} (body : t ∉ stopAll) :
    process e U p t =
      match e.bpe.idBytes t with
      | some bs =>
        ({ p with tokens := p.tokens ++ [t], contentToks := p.contentToks ++ [t], lastDeltaBytes := bs }, none)
      | none =>
        ({ p with tokens := p.tokens ++ [t], contentToks := p.contentToks ++ [t] },
          some (ascii "invalid token for decoding")) := by
  simp only [process, reading, body, if_false, decodeBytesInto_single]
  cases e.bpe.idBytes t <;> rfl

variable (e) in
-- A parser stuck in Header or Content: the buffer it reads holds an id neither table knows, so it never
-- decodes again.
def Stuck (p : StreamParser) : Prop :=
  (p.state = .header ∧ ∃ x ∈ p.headerToks, e.bpe.idBytes x = none) ∨
    (p.state = .content ∧ p.messages ≠ [] ∧ ∃ x ∈ p.contentToks, e.bpe.idBytes x = none)

theorem parseHeaderFromTokens_error_iff {r : Option Role} {hs : List Rank} :
    (∃ err, parseHeaderFromTokens e U r hs = .error err) ↔ ∃ x ∈ hs, e.bpe.idBytes x = none := by
  rw [← decodeUTF8_error_iff, parseHeaderFromTokens]
  cases e.bpe.decodeUTF8 hs <;> simp [bind, Except.bind, pure, Except.pure]

theorem finalizeMessage_error_iff {p : StreamParser} :
    (∃ err, (finalizeMessage e p).2 = some err) ↔ p.messages ≠ [] ∧ ∃ x ∈ p.contentToks, e.bpe.idBytes x = none := by
  rw [← decodeUTF8_error_iff]
  unfold finalizeMessage
  split
  · simp_all
  · split <;> simp_all

theorem processEOS_of_reading {p : StreamParser} (reading : p.state = .content) :
    processEOS e p = finalizeMessage e p :=
  if_pos reading

theorem processEOS_of_other {p : StreamParser} (other : p.state ≠ .content) : processEOS e p = (p, none) :=
  if_neg other

theorem finalizeMessage_of_error {p : StreamParser} {err : ByteString} (failed : (finalizeMessage e p).2 = some err) :
    (finalizeMessage e p).1 = p := by
  revert failed
  unfold finalizeMessage
  split
  · nofun
  · split
    · exact fun _ => rfl
    · nofun

theorem Stuck.call {p : StreamParser} (stuck : Stuck e p) (c : Call) :
    Stuck e (c.apply e U p).1 ∧ (c.apply e U p).1.state = p.state ∧ (c.apply e U p).1.messages = p.messages := by
  rcases stuck with ⟨collecting, x, held, unknown⟩ | ⟨reading, nonempty, x, held, unknown⟩
  · obtain ⟨err, failed⟩ := (parseHeaderFromTokens_error_iff (U := U) (r := p.nextRole)).mpr ⟨x, held, unknown⟩
    cases c with
    | processEOS =>
      rw [Call.apply, processEOS_of_other (by rw [collecting]; decide)]
      exact ⟨.inl ⟨collecting, x, held, unknown⟩, rfl, rfl⟩
    | process t =>
      simp only [Call.apply, process, collecting]
      split_ifs
      · exact ⟨.inl ⟨rfl, x, held, unknown⟩, rfl, rfl⟩
      · rw [failed]
        exact ⟨.inl ⟨rfl, x, held, unknown⟩, rfl, rfl⟩
      · exact ⟨.inl ⟨rfl, x, List.mem_append_left _ held, unknown⟩, rfl, rfl⟩
  · cases c with
    | processEOS =>
      obtain ⟨err, failed⟩ := (finalizeMessage_error_iff (p := p)).mpr ⟨nonempty, x, held, unknown⟩
      rw [Call.apply, processEOS_of_reading reading, finalizeMessage_of_error failed]
      exact ⟨.inr ⟨reading, nonempty, x, held, unknown⟩, rfl, rfl⟩
    | process t =>
      by_cases stop : t ∈ stopAll
      · obtain ⟨err, failed⟩ :=
          (finalizeMessage_error_iff (p := { p with tokens := p.tokens ++ [t], state := .content })).mpr ⟨nonempty, x, held, unknown⟩
        have kept := finalizeMessage_of_error failed
        simp only [Call.apply, process, reading, stop, if_true]
        split <;> rename_i finalized <;> rw [finalized] at failed kept <;> cases failed
        cases kept
        exact ⟨.inr ⟨rfl, nonempty, x, held, unknown⟩, rfl, rfl⟩
      · simp only [Call.apply, process_body reading stop]
        split <;> exact ⟨.inr ⟨reading, nonempty, x, List.mem_append_left _ held, unknown⟩, rfl, rfl⟩

theorem Stuck.calls {p : StreamParser} (stuck : Stuck e p) (cs : List Call) :
    Stuck e (calls e U p cs) ∧ (calls e U p cs).state = p.state ∧ (calls e U p cs).messages = p.messages := by
  induction cs generalizing p with
  | nil => exact ⟨stuck, rfl, rfl⟩
  | cons c cs ih =>
    obtain ⟨stuck', state, messages⟩ := stuck.call (U := U) c
    obtain ⟨stuck'', state', messages'⟩ := ih stuck'
    exact ⟨stuck'', state'.trans state, messages'.trans messages⟩

theorem stuck_of_failed {hint : Option Role} {p : StreamParser} (reach : Reachable e U hint p)
    (busy : p.state ≠ .expectStart) {c : Call} {err : ByteString} (failed : (c.apply e U p).2 = some err) :
    Stuck e (c.apply e U p).1 ∧ (c.apply e U p).1.state = p.state ∧ (c.apply e U p).1.messages = p.messages := by
  cases state : p.state
  case expectStart => exact absurd state busy
  case header =>
    cases c with
    | processEOS => rw [Call.apply, processEOS_of_other (by rw [state]; decide)] at failed; cases failed
    | process t =>
      by_cases start : t = tokStart
      · simp [Call.apply, process, state, start] at failed
      by_cases message : t ≠ tokMessage
      · simp [Call.apply, process, state, start, message] at failed
      rw [not_not] at message
      subst message
      simp only [Call.apply, process, state, start, if_false, if_true] at failed ⊢
      cases parsed : parseHeaderFromTokens e U p.nextRole p.headerToks with
      | ok hdr => rw [parsed] at failed; cases failed
      | error err' =>
        obtain ⟨x, held, unknown⟩ := parseHeaderFromTokens_error_iff.mp ⟨err', parsed⟩
        exact ⟨.inl ⟨rfl, x, held, unknown⟩, rfl, rfl⟩
  case content =>
    cases c with
    | processEOS =>
      rw [Call.apply, processEOS_of_reading state] at failed ⊢
      obtain ⟨nonempty, x, held, unknown⟩ := finalizeMessage_error_iff.mp ⟨err, failed⟩
      rw [finalizeMessage_of_error failed]
      exact ⟨.inr ⟨state, nonempty, x, held, unknown⟩, state, rfl⟩
    | process t =>
      by_cases stop : t ∈ stopAll
      · simp only [Call.apply, process, state, stop, if_true] at failed ⊢
        split at failed <;> rename_i finalized <;> cases failed
        obtain ⟨nonempty, x, held, unknown⟩ := finalizeMessage_error_iff.mp ⟨_, congrArg Prod.snd finalized⟩
        have kept := finalizeMessage_of_error (congrArg Prod.snd finalized)
        rw [finalized] at kept
        dsimp only at kept
        subst kept
        exact ⟨.inr ⟨rfl, nonempty, x, held, unknown⟩, rfl, rfl⟩
      · rw [Call.apply, process_body state stop] at failed ⊢
        cases known : e.bpe.idBytes t
        · have held : t ∈ p.contentToks ++ [t] := List.mem_append_right _ (List.mem_singleton_self t)
          exact ⟨.inr ⟨state, (consistent_of_reachable reach).reading state, t, held, known⟩, state, rfl⟩
        · simp [known] at failed

theorem failure_sticks {hint : Option Role} {p : StreamParser} (reach : Reachable e U hint p)
    (busy : p.state ≠ .expectStart) {c : Call} {err : ByteString} (failed : (c.apply e U p).2 = some err)
    (cs : List Call) :
    (calls e U p (c :: cs)).state = p.state ∧ (calls e U p (c :: cs)).messages = p.messages ∧
      Stuck e (calls e U p (c :: cs)) := by
  obtain ⟨stuck, state, messages⟩ := stuck_of_failed reach busy failed
  obtain ⟨stuck', state', messages'⟩ := stuck.calls (U := U) cs
  exact ⟨state'.trans state, messages'.trans messages, stuck'⟩

set_option maxRecDepth 10000 in
theorem failure_sticks_unknownBody :
    Reachable (gptOss asciiTables byteVocabulary) asciiTables (some roleUser) hintedReading ∧
      hintedReading.state ≠ .expectStart ∧
      (Call.apply (gptOss asciiTables byteVocabulary) asciiTables hintedReading (.process 1000)).2 =
        some (ascii "invalid token for decoding") ∧
      (calls (gptOss asciiTables byteVocabulary) asciiTables hintedReading (.process 1000 :: userHiCalls)).state =
        hintedReading.state ∧
      (calls (gptOss asciiTables byteVocabulary) asciiTables hintedReading (.process 1000 :: userHiCalls)).messages =
        hintedReading.messages ∧
      Stuck (gptOss asciiTables byteVocabulary)
        (calls (gptOss asciiTables byteVocabulary) asciiTables hintedReading (.process 1000 :: userHiCalls)) :=
  have reach : Reachable (gptOss asciiTables byteVocabulary) asciiTables (some roleUser) hintedReading := ⟨_, rfl⟩
  have busy : hintedReading.state ≠ .expectStart := by decide
  have failed : (Call.apply (gptOss asciiTables byteVocabulary) asciiTables hintedReading (.process 1000)).2 =
      some (ascii "invalid token for decoding") := rfl
  ⟨reach, busy, failed, failure_sticks reach busy failed userHiCalls⟩

variable (e U) in
-- A client's loop over a stream, as the package's tests write it: each token fed in turn, `LastContentDelta()`
-- read after each call, and the first error returned.
def streamDeltas (p : StreamParser) : List Rank → Except ByteString (StreamParser × List ByteString)
  | [] => .ok (p, [])
  | t :: ts =>
    match process e U p t with
    | (q, none) => (streamDeltas q ts).map fun r => (r.1, lastContentDelta q :: r.2)
    | (_, some err) => .error err

theorem process_known {p : StreamParser} (reading : p.state = .content) {t : Rank} (body : t ∉ stopAll)
    {bs : ByteString} (known : e.bpe.idBytes t = some bs) :
    ∃ q, process e U p t = (q, none) ∧ q.state = .content ∧ q.messages = p.messages ∧
      q.contentToks = p.contentToks ++ [t] ∧ lastContentDelta q = bs := by
  rw [process_body reading body, known]
  exact ⟨_, rfl, reading, rfl, rfl, rfl⟩

theorem currentContent_of_decoded {p : StreamParser} (reading : p.state = .content) {s : ByteString}
    (decoded : e.bpe.decodeUTF8 p.contentToks = .ok s) : currentContent e p = s := by
  simp [currentContent, reading, decoded]

theorem decodeUTF8_concat {b : CoreBPE} {ts : List Rank} {s : ByteString} (decoded : b.decodeUTF8 ts = .ok s)
    {t : Rank} {bs : ByteString} (known : b.idBytes t = some bs) : b.decodeUTF8 (ts ++ [t]) = .ok (s ++ bs) := by
  have single : b.decodeBytes [t] = .ok bs := by rw [CoreBPE.decodeBytes, decodeBytesInto_single, known]
  rw [CoreBPE.decodeUTF8, CoreBPE.decodeBytes_append, ← CoreBPE.decodeUTF8, decoded, single]
  rfl

theorem streamDeltas_body {p : StreamParser} (reading : p.state = .content) {s : ByteString}
    (decoded : e.bpe.decodeUTF8 p.contentToks = .ok s) {body : List Rank} (free : ∀ t ∈ body, t ∉ stopAll) :
    ((∃ err, streamDeltas e U p body = .error err) ↔ ∃ t ∈ body, e.bpe.idBytes t = none) ∧
      ∀ q ds, streamDeltas e U p body = .ok (q, ds) →
        q.state = .content ∧ q.messages = p.messages ∧ currentContent e q = currentContent e p ++ ds.flatten := by
  induction body generalizing p s with
  | nil =>
    refine ⟨by simp [streamDeltas], fun q ds streamed => ?_⟩
    cases streamed
    simp [reading]
  | cons t ts ih =>
    have body := free t (List.mem_cons_self _ _)
    cases known : e.bpe.idBytes t with
    | none =>
      rw [streamDeltas, process_body reading body, known]
      exact ⟨by simp [known], by simp⟩
    | some bs =>
      obtain ⟨q₁, stepped, state₁, messages₁, contentToks₁, delta₁⟩ := process_known reading body known
      have decoded₁ : e.bpe.decodeUTF8 q₁.contentToks = .ok (s ++ bs) := contentToks₁ ▸ decodeUTF8_concat decoded known
      obtain ⟨fails, succeeds⟩ := ih state₁ decoded₁ fun x mem => free x (List.mem_cons_of_mem _ mem)
      rw [streamDeltas, stepped]
      dsimp only
      refine ⟨?_, fun q ds streamed => ?_⟩
      · simp only [List.mem_cons, exists_eq_or_imp, known, reduceCtorEq, false_or, ← fails]
        cases streamDeltas e U q₁ ts <;> simp [Except.map]
      · cases rest : streamDeltas e U q₁ ts with
        | error err => simp [rest, Except.map] at streamed
        | ok r =>
          simp only [rest, Except.map, Except.ok.injEq, Prod.mk.injEq] at streamed
          obtain ⟨rfl, rfl⟩ := streamed
          obtain ⟨state, messages, grown⟩ := succeeds r.1 r.2 rest
          refine ⟨state, messages.trans messages₁, ?_⟩
          rw [grown, currentContent_of_decoded state₁ decoded₁, currentContent_of_decoded reading decoded, delta₁]
          simp

theorem streamDeltas_body_hi :
    hintedReading.state = .content ∧ (gptOss asciiTables byteVocabulary).bpe.decodeUTF8 hintedReading.contentToks = .ok [] ∧
      (∀ t ∈ [0x68, 0x69], t ∉ stopAll) ∧
      ((∃ err, streamDeltas (gptOss asciiTables byteVocabulary) asciiTables hintedReading [0x68, 0x69] = .error err) ↔
        ∃ t ∈ [0x68, 0x69], (gptOss asciiTables byteVocabulary).bpe.idBytes t = none) ∧
      ∀ q ds, streamDeltas (gptOss asciiTables byteVocabulary) asciiTables hintedReading [0x68, 0x69] = .ok (q, ds) →
        q.state = .content ∧ q.messages = hintedReading.messages ∧
          currentContent (gptOss asciiTables byteVocabulary) q =
            currentContent (gptOss asciiTables byteVocabulary) hintedReading ++ ds.flatten :=
  have reading : hintedReading.state = .content := rfl
  have decoded : (gptOss asciiTables byteVocabulary).bpe.decodeUTF8 hintedReading.contentToks = .ok [] := rfl
  have free : ∀ t ∈ [0x68, 0x69], t ∉ stopAll := by decide
  ⟨reading, decoded, free, streamDeltas_body reading decoded free⟩

theorem processEOS_twice {hint : Option Role} {p : StreamParser} (reach : Reachable e U hint p)
    (reading : p.state = .content) (flushed : (processEOS e p).2 = none) :
    ∃ ms m, p.messages = ms ++ [m] ∧
      (processEOS e p).1.messages = ms ++ [{ m with content := [textContent (currentContent e p)] }] ∧
      (processEOS e (processEOS e p).1).2 = none ∧
      (processEOS e (processEOS e p).1).1.messages = ms ++ [{ m with content := [textContent []] }] := by
  obtain ⟨ms, m, held⟩ :=
    List.eq_nil_or_concat p.messages |>.resolve_left ((consistent_of_reachable reach).reading reading)
  rw [List.concat_eq_append] at held
  rw [processEOS_of_reading reading] at flushed ⊢
  cases decoded : e.bpe.decodeUTF8 p.contentToks with
  | error err => rw [finalizeMessage_error held decoded] at flushed; cases flushed
  | ok text =>
    rw [finalizeMessage_ok held decoded]
    refine ⟨ms, m, held, by rw [currentContent_of_decoded reading decoded], ?_⟩
    have empty : e.bpe.decodeUTF8 [] = .ok [] := rfl
    simp only [processEOS, reading, ↓reduceIte]
    rw [finalizeMessage_ok (p := ⟨_, _, _, _, [], [], _⟩) rfl empty]
    exact ⟨rfl, rfl⟩

theorem processEOS_twice_hinted :
    Reachable (gptOss asciiTables byteVocabulary) asciiTables (some roleUser) hintedReading ∧
      hintedReading.state = .content ∧ (processEOS (gptOss asciiTables byteVocabulary) hintedReading).2 = none ∧
      ∃ ms m, hintedReading.messages = ms ++ [m] ∧
        (processEOS (gptOss asciiTables byteVocabulary) hintedReading).1.messages =
          ms ++ [{ m with content := [textContent (currentContent (gptOss asciiTables byteVocabulary) hintedReading)] }] ∧
        (processEOS (gptOss asciiTables byteVocabulary) (processEOS (gptOss asciiTables byteVocabulary) hintedReading).1).2 =
          none ∧
        (processEOS (gptOss asciiTables byteVocabulary)
          (processEOS (gptOss asciiTables byteVocabulary) hintedReading).1).1.messages =
            ms ++ [{ m with content := [textContent []] }] :=
  have reach : Reachable (gptOss asciiTables byteVocabulary) asciiTables (some roleUser) hintedReading := ⟨_, rfl⟩
  have reading : hintedReading.state = .content := rfl
  have flushed : (processEOS (gptOss asciiTables byteVocabulary) hintedReading).2 = none := rfl
  ⟨reach, reading, flushed, processEOS_twice reach reading flushed⟩

def HeadersClean (p : StreamParser) : Prop := ∀ m ∈ p.messages, CleanHeader m.recipient m.channel m.contentType

theorem HeadersClean.moves {p q : StreamParser} (clean : HeadersClean p) (moves : Moves p q) : HeadersClean q := by
  cases moves with
  | keep _ _ messages => rw [HeadersClean, messages]; exact clean
  | start _ _ _ messages => rw [HeadersClean, messages]; exact clean
  | message hdr _ _ _ fresh messages =>
    intro m mem
    rw [messages, List.mem_append, List.mem_singleton] at mem
    rcases mem with old | rfl
    · exact clean m old
    · exact fresh
  | finalize text _ _ _ messages =>
    intro m mem
    rw [messages] at mem
    rcases List.eq_nil_or_concat p.messages with empty | ⟨ms, last, held⟩
    · simp [empty, finalizeLast] at mem
    · rw [List.concat_eq_append] at held
      rw [held, finalizeLast_concat, List.mem_append, List.mem_singleton] at mem
      rcases mem with old | rfl
      · exact clean m (held ▸ List.mem_append_left _ old)
      · exact clean last (held ▸ List.mem_append_right _ (List.mem_singleton_self _))

theorem processAll_calls {p q : StreamParser} {ts : List Rank} (done : processAll e U p ts = .ok q) :
    calls e U p (ts.map .process) = q := by
  induction ts generalizing p with
  | nil => cases done; rfl
  | cons t ts ih =>
    rw [processAll] at done
    split at done
    · rename_i p' processed
      show calls e U (process e U p t).1 _ = q
      rw [processed]
      exact ih done
    · cases done

theorem messages_headers_clean :
    (∀ {hint : Option Role} {p : StreamParser}, Reachable e U hint p →
      ∀ m ∈ p.messages, CleanHeader m.recipient m.channel m.contentType) ∧
    (∀ {tokens : List Rank} {role : Option Role} {msgs : List Message},
      e.parseMessagesFromCompletionTokens U tokens role = .ok msgs →
      ∀ m ∈ msgs, CleanHeader m.recipient m.channel m.contentType) := by
  have session : ∀ {hint : Option Role} {p : StreamParser}, Reachable e U hint p → HeadersClean p := by
    rintro hint p ⟨cs, rfl⟩
    exact calls_induction HeadersClean (fun p c clean => clean.moves (Call.apply_moves p c))
      (fun m mem => by simp [newStreamParser] at mem) cs
  refine ⟨session, fun {tokens role msgs} parsed => ?_⟩
  unfold Encoding.parseMessagesFromCompletionTokens at parsed
  cases run : processAll e U (newStreamParser role) tokens with
  | error err => simp [run, bind, Except.bind] at parsed
  | ok p =>
    simp only [run, bind, Except.bind] at parsed
    split at parsed
    · rename_i q flushed
      cases parsed
      have reach : Reachable e U role q := ⟨tokens.map .process ++ [.processEOS], by
        rw [calls_append, processAll_calls run]
        show (processEOS e p).1 = q
        rw [flushed]⟩
      exact session reach
    · cases parsed

end StreamParser

end Harmony
