import Hound.Http.ServeLoop
import Mathlib.Data.List.Forall2

/-!
# A stream of requests

`Expect p rest ms`: the parser `p` in front of the bytes `rest` has the requests `ms`
still to report. `parse` keeps it until the next request is complete (`Expect.parse`), so
does the loop of `on_message` (`serve_expect`), and so does a run (`Served.expect`), while
the buffer keeps to its first block. `pipeline_complete_iff`: a stream of requests has
been served whole when all of it has been read if and only if it has at most `kBlockSize`
bytes.
-/

namespace Hound.Http

open Lib Lib.Consumer HttpParser Connection

def encodeAll (ms : List Message) : Bytes := ms.flatMap Message.encode

namespace Message

def head : Message → Head
  | bare h _ _ => h
  | fixed h _ _ _ => h
  | chunked h _ _ _ => h

def body : Message → Bytes
  | bare _ _ _ => []
  | fixed _ body _ _ => body
  | chunked _ cs _ _ => chunksData cs

/-- `req` is what `m` encodes. -/
structure Reports (m : Message) (req : HttpRequest) : Prop where
  method : req.method = .fromStr m.head.method
  path : req.path = m.head.path
  version : req.version = m.head.version
  header : ∀ k, req.header k = m.head.value k
  body : req.body = m.body

theorem reports_request (m : Message) : m.Reports m.request := by
  cases m with
  | bare h hc hl =>
    exact ⟨h.request_method, h.request_path, h.request_version, h.request_header, h.request_body⟩
  | fixed h body hc hl =>
    exact ⟨h.request_method, h.request_path, h.request_version, h.request_header, rfl⟩
  | chunked h cs hc hne =>
    exact ⟨h.request_method, h.request_path, h.request_version, h.request_header, rfl⟩

theorem encode_ne_nil (m : Message) (r : Bytes) : m.encode ++ r ≠ [] := by
  cases m with
  | bare h hc hl => exact h.encode_ne_nil r
  | fixed h body hc hl => rw [encode, List.append_assoc]; exact h.encode_ne_nil _
  | chunked h cs hc hne => rw [encode, List.append_assoc]; exact h.encode_ne_nil _

end Message

theorem encode_lt_of_mem {m : Message} {ms : List Message} (hm : m ∈ ms) {n : Nat}
    (h : (encodeAll ms).length < n) : m.encode.length < n := by
  obtain ⟨s, t, rfl⟩ := List.append_of_mem hm
  simp only [encodeAll, List.flatMap_append, List.flatMap_cons, List.length_append] at h
  omega

/-! ## What is still to come -/

/-- The requests `ms` are still to be reported: the one-shot run completes the first of
them and ends in front of the others. -/
def Expect (p : HttpParser) (rest : Bytes) : List Message → Prop
  | [] => p = .new ∧ rest = []
  | m :: ms => p.plain = true ∧ p.Inv ∧ ∃ k, plainMachine.run p rest = (m.parsed, k) ∧
      rest.drop k = encodeAll ms

theorem expect_new {ms : List Message} (hms : ∀ m ∈ ms, m.Prompt ∧ m.encode.length < sizeMod) :
    Expect .new (encodeAll ms) ms := by
  cases ms with
  | nil => exact ⟨rfl, rfl⟩
  | cons m ms =>
    obtain ⟨hm, hlt⟩ := hms m List.mem_cons_self
    refine ⟨rfl, inv_new, m.encode.length, ?_, ?_⟩
    · exact Message.run_encode hm.not_chunked hlt (.inl hm)
    · exact List.drop_left

/-- A parser that waits, with nothing behind what it sees, has reported everything. -/
theorem Expect.nil_of_stuck {p : HttpParser} {rest : Bytes} {ms : List Message}
    (hms : ∀ m ∈ ms, m.Prompt) (h : Expect p rest ms) (hs : rest = [] ∨ Stuck p rest) :
    ms = [] ∧ rest = [] := by
  cases ms with
  | nil => exact ⟨rfl, h.2⟩
  | cons m ms =>
    exfalso
    obtain ⟨hp, -, k, hrun, -⟩ := h
    have hsame : plainMachine.run p rest = (p, 0) := by
      by_cases hne : rest = []
      · rw [hne, run_nil]
      · have hstep : plainMachine.step p rest = (p, 0) := by
          have := (hs.resolve_left hne) []
          rw [dispatch_plain hp, Except.ok.injEq] at this
          exact this
        rw [run_idle (not_halted.mpr hp) hne (by rw [hstep]), hstep]
    rw [hsame] at hrun
    have hst := Message.parsed_state (hms m List.mem_cons_self).not_chunked
    rw [← (Prod.mk.inj hrun).1] at hst
    unfold plain at hp
    rw [hst] at hp
    cases hp

/-- **`parse` works off the first request** or keeps it for the next call. -/
theorem Expect.parse {J : Buffer → Prop} (hJ : Buffer.Contiguous J) {b : Buffer} (hb : J b)
    {p : HttpParser} {future : Bytes} {m : Message} {ms : List Message} (hm : m.Prompt)
    (h : Expect p (b.content ++ future) (m :: ms)) :
    ∃ q b' k, p.parse b = .ok (q, b', k) ∧ J b' ∧
      ((q = m.parsed ∧ b'.content ++ future = encodeAll ms) ∨
        Expect q (b'.content ++ future) (m :: ms)) := by
  obtain ⟨hp, hI, k, hrun, hrest⟩ := h
  obtain ⟨b', hb', hcon, hparse⟩ := parse_run hJ hb hI
  have hle := plain_incremental.run_le (w := b.content) hI
  have hgo := plain_incremental.run_append (w := b.content) hI future
  have hI' := plain_incremental.run_keep (w := b.content) hI
  have hend := plain_incremental.run_end (w := b.content) hI
  generalize plainMachine.run p b.content = r at hcon hparse hle hgo hI' hend
  obtain ⟨q, n⟩ := r
  simp only at hcon hparse hle hgo hI' hend
  rw [List.drop_append_of_le_length hle, ← hcon, hrun] at hgo
  -- what is left of the stream behind this call
  have hdrop (i : Nat) : (b'.content ++ future).drop i = (b.content ++ future).drop (n + i) := by
    rw [← List.drop_drop, List.drop_append_of_le_length hle, hcon]
  by_cases hq : q.plain = true
  · have hstop : q.parse b' = .ok (q, b', 0) := by
      rcases hend with hhalt | hnil | hstep
      · rw [not_halted.mpr hq] at hhalt; cases hhalt
      · exact parse_empty q ((hJ.valid hb').size_eq_zero_iff.mpr (hcon.trans hnil))
      · refine Stuck.parse (hJ.valid hb') fun beyond => ?_
        rw [hJ.window hb', dispatch_plain hq, hcon]
        exact congrArg _ hstep
    refine ⟨q, b', n, by rw [hparse, hstop]; rfl, hb', .inr ⟨hq, hI', ?_⟩⟩
    obtain ⟨hfst, hsnd⟩ := Prod.ext_iff.mp hgo
    refine ⟨(plainMachine.run q (b'.content ++ future)).2, Prod.ext hfst.symm rfl, ?_⟩
    rw [hdrop, ← hrest, show k = n + _ from hsnd]
  · rw [run_halted (by simpa [plainMachine] using hq)] at hgo
    obtain ⟨rfl, rfl⟩ : m.parsed = q ∧ k = n := by simpa [shift] using hgo
    have hstop : Stuck m.parsed b'.window :=
      dispatch_stopped (.inl (Message.parsed_state hm.not_chunked)) _
    refine ⟨_, b', k, by rw [hparse, hstop.parse (hJ.valid hb')]; rfl, hb', .inl ⟨rfl, ?_⟩⟩
    rw [← hrest]
    exact hdrop 0

/-! ## The loop and the run -/

variable {H : Type} {env : ServerEnv H}

/-- **The loop of `on_message` reports the requests it is shown**, and reaches its end. -/
theorem serve_expect (env : ServerEnv H) {J : Buffer → Prop} (hJ : Buffer.Contiguous J)
    {fuel : Nat} {c : Connection H} (hb : J c.readBuf) (hp : Sound c.parser)
    (hf : turnsLeft c < fuel) {future : Bytes} {ms : List Message}
    (hms : ∀ m ∈ ms, m.Prompt ∧ m.encode.length < sizeMod)
    (h : Expect c.parser (c.readBuf.content ++ future) ms) :
    (c.serveLoop env fuel).2 = .loopEnd ∧ ∃ done left, ms = done ++ left ∧
      (c.serveLoop env fuel).1.reported = c.reported ++ done.map Message.request ∧
      Expect (c.serveLoop env fuel).1.parser
        ((c.serveLoop env fuel).1.readBuf.content ++ future) left := by
  -- what a call of `parse` in the loop does to the first request
  have hparse {c : Connection H} {ms : List Message} {r : Except Fault (HttpParser × Buffer × Nat)}
      (hb : J c.readBuf) (h0 : c.readBuf.size ≠ 0)
      (hms : ∀ m ∈ ms, m.Prompt ∧ m.encode.length < sizeMod)
      (h : Expect c.parser (c.readBuf.content ++ future) ms) (hr : c.parser.parse c.readBuf = r) :
      ∃ q b' k, r = .ok (q, b', k) ∧ J b' ∧
        ((∃ m ms', ms = m :: ms' ∧ q = m.parsed ∧ b'.content ++ future = encodeAll ms') ∨
          q.plain = true ∧ Expect q (b'.content ++ future) ms) := by
    cases ms with
    | nil =>
      exact absurd ((hJ.valid hb).size_eq_zero_iff.mpr (List.append_eq_nil_iff.mp h.2).1) h0
    | cons m ms =>
      obtain ⟨q, b', k, hr', hb', hq⟩ := h.parse hJ hb (hms m List.mem_cons_self).1
      exact ⟨q, b', k, hr.symm.trans hr', hb', hq.imp (fun h => ⟨m, ms, rfl, h⟩) fun h => ⟨h.1, h⟩⟩
  have hstate {q : HttpParser} (hq : q.plain = true) : q.state ≠ .done ∧ q.state ≠ .error := by
    unfold plain at hq
    constructor <;> intro hs <;> rw [hs] at hq <;> cases hq
  refine serve_induction (motive := fun c r => J c.readBuf → ∀ ms : List Message,
    (∀ m ∈ ms, m.Prompt ∧ m.encode.length < sizeMod) →
    Expect c.parser (c.readBuf.content ++ future) ms →
    r.2 = .loopEnd ∧ ∃ done left, ms = done ++ left ∧
      r.1.reported = c.reported ++ done.map Message.request ∧
      Expect r.1.parser (r.1.readBuf.content ++ future) left)
    ?empty ?threw ?bad ?wait ?done ?more (hJ.valid hb) hp hf hb ms hms h
  case empty =>
    intro c _ _ _ _ ms _ h
    exact ⟨rfl, [], ms, rfl, (List.append_nil _).symm, h⟩
  case threw =>
    intro c e _ _ h0 hr hb ms hms h
    obtain ⟨q, b', k, hr', -⟩ := hparse hb h0 hms h hr
    cases hr'
  case bad =>
    intro c p buf k _ _ h0 hr he hb ms hms h
    obtain ⟨q, b', k', hr', -, hq⟩ := hparse hb h0 hms h hr
    cases hr'
    rcases hq with ⟨m, ms, rfl, rfl, -⟩ | ⟨hq, -⟩
    · rw [Message.parsed_state (hms m List.mem_cons_self).1.not_chunked] at he
      cases he
    · exact absurd he (hstate hq).2
  case wait =>
    intro c p buf _ _ h0 hr _ hd hb ms hms h
    obtain ⟨q, b', k', hr', -, hq⟩ := hparse hb h0 hms h hr
    cases hr'
    rcases hq with ⟨m, ms, rfl, rfl, -⟩ | ⟨-, hq⟩
    · exact absurd (Message.parsed_state (hms m List.mem_cons_self).1.not_chunked) hd
    · exact ⟨rfl, [], ms, rfl, (List.append_nil _).symm, hq⟩
  case done =>
    intro c p buf k r _ _ h0 hr hd ih hb ms hms h
    obtain ⟨q, b', k', hr', hb', hq⟩ := hparse hb h0 hms h hr
    cases hr'
    rcases hq with ⟨m, ms, rfl, rfl, hrest⟩ | ⟨hq, -⟩
    · obtain ⟨hm, hlt⟩ := hms m List.mem_cons_self
      have hms' : ∀ m ∈ ms, m.Prompt ∧ m.encode.length < sizeMod :=
        fun m' hm' => hms m' (List.mem_cons_of_mem _ hm')
      rw [complete_readBuf, parser_complete, complete_reported, hrest,
        Message.parsed_request hm.not_chunked hlt] at ih
      obtain ⟨hend, done, left, rfl, hrep, hleft⟩ := ih hb' ms hms' (expect_new hms')
      refine ⟨hend, m :: done, left, rfl, ?_, hleft⟩
      rw [hrep, List.append_assoc]
      rfl
    · exact absurd hd (hstate hq).1
  case more =>
    intro c p buf k r _ _ h0 hr _ _ hd ih hb ms hms h
    obtain ⟨q, b', k', hr', hb', hq⟩ := hparse hb h0 hms h hr
    cases hr'
    rcases hq with ⟨m, ms, rfl, rfl, -⟩ | ⟨-, hq⟩
    · exact absurd (Message.parsed_state (hms m List.mem_cons_self).1.not_chunked) hd
    · exact ih hb' ms hms hq

variable {c : Connection H} {exit : Exit}

/-- **Along a run**: the requests reported are the first of the stream, each once and in
order, and the connection expects the others. -/
theorem Served.expect [HeadMemory] {stream : Bytes} (h : Served env stream c exit)
    (hlen : stream.length ≤ kBlockSize) {future : Bytes} {ms : List Message}
    (hms : ∀ m ∈ ms, m.Prompt ∧ m.encode.length < sizeMod)
    (hs : stream ++ future = encodeAll ms) :
    exit = .loopEnd ∧ ∃ done left, ms = done ++ left ∧
      c.reported = done.map Message.request ∧
      Expect c.parser (c.readBuf.content ++ future) left := by
  induction h generalizing future with
  | accept => exact ⟨rfl, [], ms, rfl, rfl, hs ▸ expect_new hms⟩
  | @read stream bs c c' exit h hopen hne hroom hr ih =>
    have hpos : 0 < bs.length := List.length_pos_iff.mpr hne
    rw [List.length_append] at hlen
    rw [List.append_assoc] at hs
    obtain ⟨hone, hend⟩ := h.oneBlock (show stream.length ≤ kBlockSize by omega)
    obtain ⟨-, done, left, rfl, hrep, hexp⟩ := ih (by omega) hs
    rw [← List.append_assoc, ← hone.valid.content_writeVia hroom] at hexp
    rw [onMessage_data hone.valid hopen hne] at hr
    obtain ⟨hexit, done', left', rfl, hrep', hexp'⟩ := serve_expect env (c := c.received bs)
      (Buffer.contiguous_oneBlock _) (hone.writeVia hlen (by omega)) (hend rfl).1
      (turnsLeft_lt_serveFuel _) (fun m hm => hms m (List.mem_append_right _ hm)) hexp
    rw [hr] at hexit hrep' hexp'
    refine ⟨hexit, done ++ done', left', (List.append_assoc ..).symm, ?_, hexp'⟩
    rw [List.map_append, ← hrep]
    exact hrep'

/-- **When a stream of requests is served whole.** Once all of it has been read, in
whatever pieces, every request has been reported once and in order and the buffer is
empty if and only if the stream has at most `kBlockSize` bytes. -/
theorem pipeline_complete_iff [HeadMemory] {ms : List Message} (hms : ∀ m ∈ ms, m.Prompt)
    (h : Served env (encodeAll ms) c exit) :
    (List.Forall₂ Message.Reports ms c.reported ∧ c.readBuf.size = 0) ↔
      (encodeAll ms).length ≤ kBlockSize := by
  constructor
  · rintro ⟨-, h0⟩
    by_contra hlong
    exact (h.jammed (Nat.lt_of_not_le hlong)).2.1 h0
  · intro hlen
    have hms' : ∀ m ∈ ms, m.Prompt ∧ m.encode.length < sizeMod := fun m hm =>
      ⟨hms m hm, encode_lt_of_mem hm (Nat.lt_of_le_of_lt hlen (by decide))⟩
    obtain ⟨hone, hend⟩ := h.oneBlock hlen
    obtain ⟨hexit, done, left, rfl, hrep, hexp⟩ := h.expect hlen hms' (List.append_nil _)
    rw [List.append_nil] at hexp
    obtain ⟨rfl, hnil⟩ := hexp.nil_of_stuck (fun m hm => hms m (List.mem_append_right _ hm))
      (by
        have hsettled := (hend hexit).2
        unfold Connection.Settled at hsettled
        rw [hone.window_eq] at hsettled
        exact hsettled.imp id And.left)
    rw [List.append_nil, hrep]
    refine ⟨?_, hone.valid.size_eq_zero_iff.mpr hnil⟩
    rw [List.forall₂_map_right_iff, List.forall₂_same]
    exact fun m _ => m.reports_request

def getMessage (path : Bytes) (h : Token path) : Message :=
  .bare
    { method := bytes "GET"
      path := path
      version := bytes "HTTP/1.1"
      headers := []
      method_ok := by decide
      path_ok := h
      version_ok := token_version
      headers_ok := fun _ h => absurd h List.not_mem_nil }
    (fun hc => absurd (List.infix_nil.mp hc) (by decide)) rfl

theorem encode_getMessage (path : Bytes) (h : Token path) :
    encodeAll [getMessage path h] = bytes "GET " ++ path ++ bytes " HTTP/1.1\r\n\r\n" := by
  simp [encodeAll, getMessage, Message.encode, Head.encode, requestText, encodeHeaders, bytes,
    crlf, SP, CR, LF]

/-- A request that arrives in two reads, cut in its version. -/
theorem pipeline_complete_two_reads :
    ∃ c exit, Served idleEnv (encodeAll [getMessage (bytes "/") (by decide)]) c exit ∧
      List.Forall₂ Message.Reports [getMessage (bytes "/") (by decide)] c.reported ∧
      c.readBuf.size = 0 := by
  let m := getMessage (bytes "/") (by decide)
  have hm : ∀ m' ∈ [m], m'.Prompt := by
    rintro _ (_ | ⟨_, ⟨⟩⟩)
    trivial
  have h : Served idleEnv (encodeAll [m]) _ .loopEnd :=
    (Served.accept.next (bytes "GET / HT") (by decide +kernel)).next (bytes "TP/1.1\r\n\r\n")
      (by decide +kernel)
  exact ⟨_, _, h, (pipeline_complete_iff hm h).mpr (by decide)⟩

/-- A request line that fills the first block is never read to its end. -/
theorem Served.long_line [HeadMemory] {w x : Bytes} (hw : CR ∉ w) (hlen : w.length = kBlockSize)
    (hx : x ≠ [])
    (hle : x.length ≤ kBlockSize) :
    Served env (w ++ x) ((({} : Connection H).received w).received x) .loopEnd := by
  have hpos : 0 < kBlockSize := by decide
  let c : Connection H := ({} : Connection H).received w
  have hone : c.readBuf.OneBlock kBlockSize := by
    have hfill : (Buffer.new.writeVia w).OneBlock (0 + w.length) :=
      Buffer.oneBlock_new.writeVia (by omega) hpos
    rwa [Nat.zero_add, hlen] at hfill
  have hroom : w.length ≤ Buffer.new.room := by rw [Buffer.oneBlock_new.room hpos]; omega
  have hwin : c.readBuf.window = w := by
    rw [hone.window_eq]
    exact Buffer.valid_new.content_writeVia hroom
  have hroom' : x.length ≤ c.readBuf.room := by
    rw [hone.jammed.room hone.same]; exact hle
  obtain ⟨hj, hwin'⟩ := hone.jammed.writeVia hroom'
  have h1 : Served env ([] ++ w) c .loopEnd :=
    .read .accept rfl (List.ne_nil_of_length_pos (by omega)) hroom (by
      rw [onMessage_data Buffer.valid_new rfl (List.ne_nil_of_length_pos (by omega))]
      exact serve_no_cr hone.valid rfl (by rw [hwin]; exact hw) _)
  exact .read h1 rfl hx hroom' (by
    rw [onMessage_data hone.valid rfl hx]
    refine serve_no_cr hj.valid rfl ?_ _
    rw [show (c.received x).readBuf.window = w from hwin'.trans hwin]; exact hw)

def longGet : Message :=
  getMessage (List.replicate 5000 97) (by simp only [Token, List.mem_replicate]; decide)

theorem longGet_length : (encodeAll [longGet]).length = 5017 := by
  rw [longGet, encode_getMessage, List.length_append, List.length_append, List.length_replicate]
  rfl

/-- A request line longer than a block: all of it is read and nothing is reported. -/
theorem pipeline_stalls_on_long_line :
    ∃ c, Served idleEnv (encodeAll [longGet]) c .loopEnd ∧ longGet.Prompt ∧ c.reported = [] ∧
      c.readBuf.size ≠ 0 := by
  have hcr : CR ∉ (encodeAll [longGet]).take kBlockSize := by
    have hline : CR ∉ bytes "GET " ++ List.replicate 5000 97 := by
      simp only [List.mem_append, List.mem_replicate]; decide
    rw [longGet, encode_getMessage, List.take_append_of_le_length (by
      rw [List.length_append, List.length_replicate]; decide)]
    exact fun h => hline (List.mem_of_mem_take h)
  have hdrop : ((encodeAll [longGet]).drop kBlockSize).length = 921 := by
    rw [List.length_drop, longGet_length]; rfl
  have h : Served idleEnv _ _ .loopEnd := Served.long_line hcr
    (by rw [List.length_take, longGet_length]; rfl)
    (List.ne_nil_of_length_pos (by rw [hdrop]; decide)) (by rw [hdrop]; decide)
  rw [List.take_append_drop] at h
  exact ⟨_, h, trivial, rfl, (h.jammed (by rw [longGet_length]; decide)).2.1⟩

end Hound.Http
