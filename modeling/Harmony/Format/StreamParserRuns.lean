import Harmony.Format.StreamParserLaws
import Harmony.Tokenizer.Decoding
import Harmony.Tokenizer.RoundTrip

set_option autoImplicit false

namespace Harmony

namespace StreamParser

variable (e : Encoding) (U : UnicodeTables)

-- `ParseMessagesFromCompletionTokens` from a parser already built: the rest of the stream, then EOS.
def drain (p : StreamParser) (ts : List Rank) : Except ByteString (List Message) := do
  let q ← processAll e U p ts
  match processEOS e q with
  | (q, none) => pure q.messages
  | (_, some err) => throw err

theorem parseMessages_eq_drain (ts : List Rank) (role : Option Role) :
    e.parseMessagesFromCompletionTokens U ts role = drain e U (newStreamParser role) ts := rfl

variable {e U}

theorem drain_cons (p : StreamParser) (t : Rank) (ts : List Rank) :
    drain e U p (t :: ts) =
      match process e U p t with
      | (q, none) => drain e U q ts
      | (_, some err) => .error err := by
  unfold drain
  rw [processAll]
  rcases process e U p t with ⟨q, _ | err⟩ <;> rfl

theorem drain_nil (p : StreamParser) :
    drain e U p [] =
      match processEOS e p with
      | (q, none) => .ok q.messages
      | (_, some err) => .error err := by
  show (match processEOS e p with
    | (q, none) => pure q.messages
    | (_, some err) => throw err) = _
  rcases processEOS e p with ⟨q, _ | err⟩ <;> rfl

theorem drain_of_error {p : StreamParser} {t : Rank} {err : ByteString} (failed : (process e U p t).2 = some err)
    (ts : List Rank) : drain e U p (t :: ts) = .error err := by
  rw [drain_cons]
  rcases stepped : process e U p t with ⟨q, _ | err'⟩ <;> rw [stepped] at failed <;> cases failed
  rfl

theorem drain_of_ok {p q : StreamParser} {t : Rank} (stepped : process e U p t = (q, none)) (ts : List Rank) :
    drain e U p (t :: ts) = drain e U q ts := by
  rw [drain_cons, stepped]

-- A message of a stream: the hint its header is parsed with, the tokens received in the Header state
-- (`<|start|>`s that it skips included) and the tokens of its body.
structure Frame where
  role : Option Role
  header : List Rank
  body : List Rank

-- The messages read from the Header state with hint `role`: the header runs to the first `<|message|>`,
-- the body to the first stop token or the end, and the next message opens with `<|start|>`.
def headerFrames : Nat → Option Role → List Rank → List Frame
  | 0, _, _ => []
  | fuel + 1, role, ts =>
    match ts.span (· != tokMessage) with
    | (_, []) => []
    | (h, _ :: rest) =>
      match rest.span (fun t => !decide (t ∈ stopAll)) with
      | (body, []) => [⟨role, h, body⟩]
      | (body, _ :: after) =>
        ⟨role, h, body⟩ ::
          match after with
          | t :: more => if t = tokStart then headerFrames fuel none more else []
          | [] => []

-- A hinted parser starts in the Header state, an unhinted one at a `<|start|>`.
def streamFrames (hint : Option Role) (ts : List Rank) : List Frame :=
  if hint.isSome then headerFrames ts.length hint ts
  else
    match ts with
    | t :: rest => if t = tokStart then headerFrames ts.length none rest else []
    | [] => []

variable (e U) in
-- The message of a frame: the header from its tokens other than `<|start|>`, the text from its body.
def frameMessage (f : Frame) : Except ByteString Message := do
  let hdr ← parseHeaderFromTokens e U f.role (f.header.filter (· != tokStart))
  let text ← e.bpe.decodeUTF8 f.body
  pure ⟨hdr.author, hdr.recipient, [textContent text], hdr.channel, hdr.contentType⟩

theorem drain_header {p : StreamParser} (collecting : p.state = .header) {h : List Rank}
    (free : ∀ t ∈ h, t ≠ tokMessage) (rest : List Rank) :
    ∃ q : StreamParser, q.state = .header ∧ q.nextRole = p.nextRole ∧ q.messages = p.messages ∧
      q.headerToks = p.headerToks ++ h.filter (· != tokStart) ∧ drain e U p (h ++ rest) = drain e U q rest := by
  induction h generalizing p with
  | nil => exact ⟨p, collecting, rfl, rfl, by simp, by simp⟩
  | cons t ts ih =>
    have notMessage := free t (List.mem_cons_self _ _)
    have others : ∀ x ∈ ts, x ≠ tokMessage := fun x mem => free x (List.mem_cons_of_mem _ mem)
    by_cases skipped : t = tokStart
    · obtain ⟨q, state, role, held, collected, run⟩ :=
        ih (show ({ p with tokens := p.tokens ++ [t] } : StreamParser).state = .header from collecting) others
      refine ⟨q, state, role, held, by simp [collected, skipped], ?_⟩
      rw [List.cons_append, drain_of_ok (show process e U p t = ({ p with tokens := p.tokens ++ [t] }, none) by
        simp [process, collecting, skipped]), run]
    · obtain ⟨q, state, role, held, collected, run⟩ :=
        ih (show ({ p with tokens := p.tokens ++ [t], headerToks := p.headerToks ++ [t] } : StreamParser).state =
          .header from collecting) others
      refine ⟨q, state, role, held, by simp [collected, skipped], ?_⟩
      rw [List.cons_append, drain_of_ok (process_header collecting skipped notMessage), run]

theorem drain_body {p : StreamParser} (reading : p.state = .content) {body : List Rank}
    (free : ∀ t ∈ body, t ∉ stopAll) {rest : List Rank} {msgs : List Message}
    (run : drain e U p (body ++ rest) = .ok msgs) :
    ∃ q : StreamParser, q.state = .content ∧ q.nextRole = p.nextRole ∧ q.messages = p.messages ∧
      q.contentToks = p.contentToks ++ body ∧ drain e U q rest = .ok msgs := by
  induction body generalizing p with
  | nil => exact ⟨p, reading, rfl, rfl, by simp, by simpa using run⟩
  | cons t ts ih =>
    have kept := free t (List.mem_cons_self _ _)
    rw [List.cons_append] at run
    cases decoded : e.bpe.decodeBytesInto [] [t] with
    | error err =>
      rw [drain_of_error (show (process e U p t).2 = some err by simp [process, reading, kept, decoded])] at run
      cases run
    | ok delta =>
      rw [drain_of_ok (process_content reading kept decoded)] at run
      obtain ⟨q, state, role, held, buffered, run⟩ :=
        ih (by exact reading) (fun x mem => free x (List.mem_cons_of_mem _ mem)) run
      exact ⟨q, state, role, held, by simp [buffered], run⟩

theorem finalizeMessage_ok {p : StreamParser} {ms : List Message} {m : Message} (last : p.messages = ms ++ [m])
    {text : ByteString} (decoded : e.bpe.decodeUTF8 p.contentToks = .ok text) :
    finalizeMessage e p =
      ({ p with messages := ms ++ [{ m with content := [textContent text] }], headerToks := [], contentToks := [] },
        none) := by
  simp [finalizeMessage, last, decoded, modify_last]

theorem finalizeMessage_error {p : StreamParser} {ms : List Message} {m : Message} (last : p.messages = ms ++ [m])
    {err : ByteString} (failed : e.bpe.decodeUTF8 p.contentToks = .error err) : finalizeMessage e p = (p, some err) := by
  simp [finalizeMessage, last, failed]

theorem span_parts {α : Type} (keep : α → Bool) {l pre post : List α} (split : l.span keep = (pre, post)) :
    l = pre ++ post ∧ (∀ x ∈ pre, keep x = true) ∧ ∀ x rest, post = x :: rest → keep x = false := by
  rw [List.span_eq_take_drop, Prod.mk.injEq] at split
  obtain ⟨rfl, rfl⟩ := split
  refine ⟨(List.takeWhile_append_dropWhile keep l).symm, fun x mem => List.mem_takeWhile_imp mem,
    fun x rest dropped => ?_⟩
  have first := List.head?_dropWhile_not keep l
  rw [dropped] at first
  simpa using first

-- A parser about to read a header: in the Header state, with nothing collected yet.
structure Collecting (p : StreamParser) (role : Option Role) (done : List Message) : Prop where
  state : p.state = .header
  nextRole : p.nextRole = role
  fresh : p.headerToks = []
  messages : p.messages = done

-- A parser reading the body of `m`, the messages before it being `done`.
structure Reading (p : StreamParser) (done : List Message) (m : Message) : Prop where
  state : p.state = .content
  nextRole : p.nextRole = none
  fresh : p.contentToks = []
  messages : p.messages = done ++ [m]

theorem drain_idle_nil {p : StreamParser} (idle : p.state = .expectStart) : drain e U p [] = .ok p.messages := by
  rw [drain_nil, show processEOS e p = (p, none) by simp [processEOS, idle]]

theorem drain_idle_start {p : StreamParser} (idle : p.state = .expectStart) (rest : List Rank) :
    ∃ q, Collecting q p.nextRole p.messages ∧ drain e U p (tokStart :: rest) = drain e U q rest :=
  ⟨{ p with tokens := p.tokens ++ [tokStart], headerToks := [], state := .header }, ⟨rfl, rfl, rfl, rfl⟩,
    drain_of_ok (process_start idle) rest⟩

theorem drain_idle_other {p : StreamParser} (idle : p.state = .expectStart) {t : Rank} (other : t ≠ tokStart)
    (rest : List Rank) : drain e U p (t :: rest) = .error (ascii "unexpected token while expecting <|start|>") :=
  drain_of_error (by simp [process, idle, other]) rest

theorem drain_idle {p : StreamParser} (idle : p.state = .expectStart) {ts : List Rank} {msgs : List Message}
    (run : drain e U p ts = .ok msgs) :
    (ts = [] ∧ msgs = p.messages) ∨
      ∃ rest q, ts = tokStart :: rest ∧ Collecting q p.nextRole p.messages ∧ drain e U q rest = .ok msgs := by
  rcases ts with _ | ⟨t, rest⟩
  · rw [drain_idle_nil idle] at run
    exact .inl ⟨rfl, (Except.ok.inj run).symm⟩
  by_cases opened : t = tokStart
  · subst opened
    obtain ⟨q, collecting, started⟩ := drain_idle_start idle rest
    exact .inr ⟨rest, q, rfl, collecting, started ▸ run⟩
  · rw [drain_idle_other idle opened] at run
    cases run

theorem drain_header_message {p : StreamParser} {role : Option Role} {done : List Message}
    (collecting : Collecting p role done) {h : List Rank} (free : ∀ t ∈ h, t ≠ tokMessage) (rest : List Rank)
    {msgs : List Message} (run : drain e U p (h ++ tokMessage :: rest) = .ok msgs) :
    ∃ hdr, parseHeaderFromTokens e U role (h.filter (· != tokStart)) = .ok hdr ∧
      ∃ q, Reading q done ⟨hdr.author, hdr.recipient, [], hdr.channel, hdr.contentType⟩ ∧ drain e U q rest = .ok msgs := by
  obtain ⟨q, state, unchanged, held, collected, header⟩ := drain_header collecting.state free (tokMessage :: rest)
  rw [header] at run
  have toParse : parseHeaderFromTokens e U q.nextRole q.headerToks =
      parseHeaderFromTokens e U role (h.filter (· != tokStart)) := by
    rw [unchanged, collecting.nextRole, collected, collecting.fresh, List.nil_append]
  have notStart : tokMessage ≠ tokStart := by decide
  cases parsed : parseHeaderFromTokens e U role (h.filter (· != tokStart)) with
  | error err =>
    rw [drain_of_error (show (process e U q tokMessage).2 = some err by
      simp [process, state, notStart, toParse, parsed])] at run
    cases run
  | ok hdr =>
    rw [drain_of_ok (process_message state (toParse.trans parsed))] at run
    refine ⟨hdr, rfl, _, ?_, run⟩
    exact ⟨rfl, rfl, rfl, by simp [held, collecting.messages]⟩

theorem drain_reading {p : StreamParser} {done : List Message} {m : Message} (reading : Reading p done m)
    {body after : List Rank} (free : ∀ t ∈ body, t ∉ stopAll) (stopped : ∀ t more, after = t :: more → t ∈ stopAll)
    {msgs : List Message} (run : drain e U p (body ++ after) = .ok msgs) :
    ∃ text, e.bpe.decodeUTF8 body = .ok text ∧
      ((after = [] ∧ msgs = done ++ [{ m with content := [textContent text] }]) ∨
        ∃ t more q, after = t :: more ∧ q.state = .expectStart ∧ q.nextRole = none ∧
          q.messages = done ++ [{ m with content := [textContent text] }] ∧ drain e U q more = .ok msgs) := by
  obtain ⟨q, state, unchanged, held, buffered, run⟩ := drain_body reading.state free run
  have last : q.messages = done ++ [m] := held.trans reading.messages
  have contents : e.bpe.decodeUTF8 q.contentToks = e.bpe.decodeUTF8 body := by
    rw [buffered, reading.fresh, List.nil_append]
  have eos : processEOS e q = finalizeMessage e q := by simp [processEOS, state]
  cases decoded : e.bpe.decodeUTF8 body with
  | error err =>
    rcases after with _ | ⟨t, more⟩
    · rw [drain_nil, eos, finalizeMessage_error last (contents.trans decoded)] at run
      cases run
    · rw [drain_of_error (show (process e U q t).2 = some err by
        simp [process, state, stopped t more rfl, finalizeMessage, last, contents, decoded])] at run
      cases run
  | ok text =>
    refine ⟨text, rfl, ?_⟩
    rcases after with _ | ⟨t, more⟩
    · rw [drain_nil, eos, finalizeMessage_ok last (contents.trans decoded)] at run
      cases run
      exact .inl ⟨rfl, rfl⟩
    · rw [drain_of_ok (process_stop state (stopped t more rfl) last (contents.trans decoded))] at run
      refine .inr ⟨t, more, _, rfl, ?_, ?_, ?_, run⟩
      exacts [rfl, unchanged.trans reading.nextRole, rfl]

theorem drain_headerFrames (fuel : Nat) {ts : List Rank} (enough : ts.length ≤ fuel) {p : StreamParser}
    {role : Option Role} {done : List Message} (collecting : Collecting p role done) {msgs : List Message}
    (run : drain e U p ts = .ok msgs) :
    ∃ rest, msgs = done ++ rest ∧
      List.Forall₂ (fun f m => frameMessage e U f = .ok m) (headerFrames fuel role ts) rest := by
  induction fuel generalizing ts p role done with
  | zero =>
    obtain rfl : ts = [] := List.eq_nil_of_length_eq_zero (by omega)
    rw [drain_nil, show processEOS e p = (p, none) by simp [processEOS, collecting.state]] at run
    cases run
    exact ⟨[], by simp [collecting.messages], .nil⟩
  | succ fuel ih =>
    rw [headerFrames]
    rcases split : ts.span (· != tokMessage) with ⟨h, _ | ⟨m, rest⟩⟩
    all_goals obtain ⟨rfl, passes, stops⟩ := span_parts _ split
    all_goals have free : ∀ t ∈ h, t ≠ tokMessage := fun t mem => by simpa using passes t mem
    · -- No `<|message|>`: the stream ends in the header.
      obtain ⟨q, state, -, held, -, header⟩ := drain_header collecting.state free []
      rw [header, drain_nil, show processEOS e q = (q, none) by simp [processEOS, state]] at run
      cases run
      exact ⟨[], by simp [held, collecting.messages], .nil⟩
    obtain rfl : m = tokMessage := by simpa using stops m rest rfl
    obtain ⟨hdr, parsed, q, reading, run⟩ := drain_header_message collecting free rest run
    dsimp only
    rcases cut : rest.span (fun t => !decide (t ∈ stopAll)) with ⟨body, after⟩
    obtain ⟨rfl, kept, ended⟩ := span_parts _ cut
    obtain ⟨text, decoded, outcome⟩ :=
      drain_reading reading (fun t mem => by simpa using kept t mem) (fun t more rest => by simpa using ended t more rest) run
    have made : frameMessage e U ⟨role, h, body⟩ = .ok ⟨hdr.author, hdr.recipient, [textContent text], hdr.channel,
        hdr.contentType⟩ := by
      simp [frameMessage, parsed, decoded, bind, Except.bind, pure, Except.pure]
    rcases outcome with ⟨rfl, rfl⟩ | ⟨t, more, q', rfl, idle, unhinted, held, run⟩
    · exact ⟨_, rfl, .cons made .nil⟩
    rcases drain_idle idle run with ⟨rfl, rfl⟩ | ⟨more, q'', rfl, collecting', run⟩
    · exact ⟨_, held, .cons made .nil⟩
    rw [unhinted, held] at collecting'
    obtain ⟨rest', rfl, frames⟩ := ih (by simp only [List.length_append, List.length_cons] at enough; omega)
      collecting' run
    exact ⟨_ :: rest', by simp, .cons made (by simpa using frames)⟩

end StreamParser

open StreamParser

theorem parseMessages_frames (e : Encoding) (U : UnicodeTables) (hint : Option Role) (ts : List Rank)
    {msgs : List Message} (parsed : e.parseMessagesFromCompletionTokens U ts hint = .ok msgs) :
    List.Forall₂ (fun f m => frameMessage e U f = .ok m) (streamFrames hint ts) msgs := by
  rw [parseMessages_eq_drain] at parsed
  cases hint with
  | some role =>
    obtain ⟨rest, rfl, frames⟩ := drain_headerFrames ts.length le_rfl ⟨rfl, rfl, rfl, rfl⟩ parsed
    simpa [streamFrames] using frames
  | none =>
    rcases drain_idle rfl parsed with ⟨rfl, rfl⟩ | ⟨rest, q, rfl, collecting, parsed⟩
    · exact .nil
    obtain ⟨rest', rfl, frames⟩ := drain_headerFrames (rest.length + 1) (by simp) collecting parsed
    simpa [streamFrames] using frames

def userHi : List Rank := [tokStart, 0x75, 0x73, 0x65, 0x72, tokMessage, 0x68, 0x69, tokEnd]

set_option maxRecDepth 10000 in
theorem parseMessages_frames_userHi :
    (gptOss asciiTables byteVocabulary).parseMessagesFromCompletionTokens asciiTables userHi none =
        .ok [⟨⟨roleUser, []⟩, [], [textContent (ascii "hi")], [], []⟩] ∧
      List.Forall₂ (fun f m => frameMessage (gptOss asciiTables byteVocabulary) asciiTables f = .ok m)
        (streamFrames none userHi) [⟨⟨roleUser, []⟩, [], [textContent (ascii "hi")], [], []⟩] :=
  have parsed : (gptOss asciiTables byteVocabulary).parseMessagesFromCompletionTokens asciiTables userHi none =
      .ok [⟨⟨roleUser, []⟩, [], [textContent (ascii "hi")], [], []⟩] := rfl
  ⟨parsed, parseMessages_frames _ _ none userHi parsed⟩

set_option maxRecDepth 10000 in
theorem lastContentDelta_after_stop :
    ∃ p, processAll (gptOss asciiTables byteVocabulary) asciiTables (newStreamParser none) userHi = .ok p ∧
      p.state = .expectStart ∧ p.lastDeltaBytes = ascii "i" :=
  ⟨_, rfl, rfl, rfl⟩

set_option maxRecDepth 10000 in
theorem messages_hold_unfinished :
    ∃ p, processAll (gptOss asciiTables byteVocabulary) asciiTables (newStreamParser none) (userHi.take 6) = .ok p ∧
      p.state = .content ∧ p.messages = [⟨⟨roleUser, []⟩, [], [], [], []⟩] :=
  ⟨_, rfl, rfl, rfl⟩

set_option maxRecDepth 10000 in
theorem decodeUTF8_accepts_invalid :
    Utf8.validString [0xFF] = false ∧ (gptOss asciiTables byteVocabulary).bpe.decodeUTF8 [0xFF] = .ok [0xFF] ∧
      (gptOss asciiTables byteVocabulary).parseMessagesFromCompletionTokens asciiTables
        [tokStart, 0x75, 0x73, 0x65, 0x72, tokMessage, 0xFF, tokEnd] none =
        .ok [⟨⟨roleUser, []⟩, [], [textContent [0xFF]], [], []⟩] :=
  ⟨by decide, rfl, rfl⟩

end Harmony
