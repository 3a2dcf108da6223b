import Hound.Http.Finalize
import Hound.Http.Framing
import Hound.Http.Pipeline

/-!
# Requests in, responses out

`ServerEnv.dialogue` is a server that gets its requests as values, one at a time: it asks the
router, the handler or the files, sends the response, and hangs up on the first `send` that fails
and behind a request that is not to be kept alive. `Served.converses`: whatever bytes a connection
has read, in whatever pieces, it has sent what that server sends for the requests it has reported.
With a stream of well-formed requests that fits into the first block these are the requests of the
stream (`conversation`).
-/

namespace Hound.Http

open Lib HttpParser Connection

variable {H : Type}

namespace ServerEnv

variable (env : ServerEnv H)

/-- The response owed to `req` when the outside is asked for the `k`th time. -/
def response (k : Nat) (req : HttpRequest) : HttpResponse :=
  let (handler, resp) := env.router.route req {}
  let resp := match handler with
    | some f => env.invoke k f req resp
    | none =>
      if env.staticDir ≠ [] ∧ req.method = Method.get then
        match env.file k (env.staticDir ++ req.path) with
        | some file => .ok file.data (bytes "text/html")
        | none => resp
      else resp
  resp.setKeepAlive req.keepAlive

def answer (k : Nat) (req : HttpRequest) : Bytes := (env.response k req).serialize env.order

/-- How often the outside has been asked, and that the connection is closed. -/
def hungUp (s : Nat × Bool) : Nat × Bool := (if s.2 then s.1 else s.1 + 1, true)

/-- How often the outside has been asked, and whether the connection is closed, behind `req`. -/
def heard (s : Nat × Bool) (req : HttpRequest) : Nat × Bool :=
  let sent := if env.send (s.1 + 1) (env.answer s.1 req) = none then hungUp (s.1 + 2, s.2)
    else (s.1 + 2, s.2)
  if req.keepAlive then sent else hungUp sent

/-- The responses sent for these requests, each with what `send` returned. -/
def dialogue : Nat × Bool → List HttpRequest → List (Bytes × Option Nat)
  | _, [] => []
  | s, req :: reqs =>
    (env.answer s.1 req, env.send (s.1 + 1) (env.answer s.1 req)) ::
      dialogue (env.heard s req) reqs

theorem dialogue_append (s : Nat × Bool) (reqs reqs' : List HttpRequest) :
    env.dialogue s (reqs ++ reqs') =
      env.dialogue s reqs ++ env.dialogue (reqs.foldl env.heard s) reqs' := by
  induction reqs generalizing s with
  | nil => rfl
  | cons req reqs ih => exact congrArg (_ :: ·) (ih _)

theorem length_dialogue (s : Nat × Bool) (reqs : List HttpRequest) :
    (env.dialogue s reqs).length = reqs.length := by
  induction reqs generalizing s with
  | nil => rfl
  | cons req reqs ih => exact congrArg Nat.succ (ih _)

end ServerEnv

def badRequest (order : HeaderOrder) : Bytes :=
  (HttpResponse.notFound (bytes "400 Bad Request")).serialize order

/-- The dialogue, and the 400 behind it if that is how `on_message` ended. -/
def ServerEnv.spoken (env : ServerEnv H) (exit : Exit) (s : Nat × Bool)
    (reqs : List HttpRequest) : List (Bytes × Option Nat) :=
  env.dialogue s reqs ++
    if exit = .badRequest then
      [(badRequest env.order, env.send (reqs.foldl env.heard s).1 (badRequest env.order))]
    else []

theorem ServerEnv.spoken_append (env : ServerEnv H) (exit : Exit) (s : Nat × Bool)
    (reqs reqs' : List HttpRequest) :
    env.spoken exit s (reqs ++ reqs') =
      env.dialogue s reqs ++ env.spoken exit (reqs.foldl env.heard s) reqs' := by
  rw [spoken, dialogue_append, List.foldl_append, List.append_assoc]
  rfl

/-- Among requests to be kept alive, the dialogue has hung up exactly if a `send` in it failed. -/
theorem ServerEnv.heard_closed (env : ServerEnv H) (s : Nat × Bool) {reqs : List HttpRequest}
    (hreqs : ∀ req ∈ reqs, req.keepAlive = true) :
    (reqs.foldl env.heard s).2 = true ↔
      s.2 = true ∨ ∃ said ∈ env.dialogue s reqs, said.2 = none := by
  induction reqs generalizing s with
  | nil => simp [dialogue]
  | cons req reqs ih =>
    obtain ⟨hkeep, hreqs⟩ := List.forall_mem_cons.mp hreqs
    rw [List.foldl_cons, ih _ hreqs, dialogue, List.exists_mem_cons_iff, ← or_assoc]
    refine or_congr_left ?_
    unfold heard
    simp only [hkeep, if_true]
    split
    · next hfail => exact iff_of_true rfl (.inr hfail)
    · next hsent => exact (or_iff_left hsent).symm

namespace Connection

variable {env : ServerEnv H} {c : Connection H} {p : HttpParser} {buf : Buffer}

/-- What `dialogue` goes on from. -/
def standing (c : Connection H) : Nat × Bool := (c.turn, c.closed)

theorem respond_response (c : Connection H) (req : HttpRequest) :
    (c.respond env req).2.setKeepAlive req.keepAlive = env.response c.turn req := by
  unfold respond ServerEnv.response
  cases hq : env.router.route req {} with
  | mk handler resp =>
    cases handler with
    | some f => rfl
    | none =>
      by_cases hs : env.staticDir ≠ [] ∧ req.method = Method.get
      · simp only [if_pos hs]
        cases env.file c.turn (env.staticDir ++ req.path) <;> rfl
      · simp only [if_neg hs]

theorem standing_onClose (c : Connection H) :
    c.onClose.standing = ServerEnv.hungUp c.standing := by
  rw [standing, closed_onClose]
  refine Prod.ext ?_ rfl
  cases hc : c.closed <;> simp [onClose, record, turn, standing, ServerEnv.hungUp, hc]

theorem standing_sendResponse (resp : HttpResponse) :
    (c.sendResponse env resp).standing =
      if env.send c.turn (resp.serialize env.order) = none then
        ServerEnv.hungUp (c.turn + 1, c.closed)
      else (c.turn + 1, c.closed) := by
  unfold sendResponse
  simp only
  cases env.send c.turn (resp.serialize env.order) with
  | some n => rw [if_neg (Option.some_ne_none n), standing, turn_record]; rfl
  | none => rw [if_pos rfl, standing_onClose, standing, turn_record]; rfl

theorem complete_dialogue (hd : p.state = .done) :
    sends (c.complete env p buf).log = sends c.log ++ env.dialogue c.standing [p.request] ∧
      (c.complete env p buf).standing = env.heard c.standing p.request := by
  have hresp : (c.respond env p.request).2.setKeepAlive p.request.keepAlive =
      env.response c.turn p.request := respond_response c p.request
  constructor
  · rw [(grew_complete env c hd buf).sends, reply, if_neg (by rw [hd]; decide)]
    simp only [hresp]
    rfl
  · let d := (c.parsed p buf).record (.handle p p.request (c.respond env p.request).1)
    let sent := d.sendResponse env (env.response c.turn p.request)
    have hsent : sent.standing = _ := standing_sendResponse (env.response c.turn p.request)
    rw [show d.turn = c.turn + 1 from turn_record _ _] at hsent
    have hsame : (c.complete env p buf).standing =
        (if p.request.keepAlive then sent else sent.onClose).standing := by
      unfold complete handleRequest
      simp only [show (c.parsed p buf).parser.request = p.request from rfl,
        show (c.parsed p buf).respond env p.request = c.respond env p.request from rfl, hresp]
      rfl
    rw [hsame, ServerEnv.heard]
    cases p.request.keepAlive with
    | true => exact hsent
    | false => exact (standing_onClose sent).trans (congrArg ServerEnv.hungUp hsent)

end Connection

/-! ## The loop and the run -/

variable {env : ServerEnv H} {c : Connection H}

/-- From `c` to `r.1` the requests `new` were reported and answered as in the dialogue. -/
structure Converses (env : ServerEnv H) (c : Connection H) (r : Connection H × Exit)
    (new : List HttpRequest) : Prop where
  reported : r.1.reported = c.reported ++ new
  sends : sends r.1.log = sends c.log ++ env.spoken r.2 c.standing new
  standing : r.2 ≠ .badRequest → r.1.standing = new.foldl env.heard c.standing

theorem Converses.quiet {c c' : Connection H} {exit : Exit} (hlog : c'.log = c.log)
    (hclosed : c'.closed = c.closed) (hexit : exit ≠ .badRequest) :
    Converses env c (c', exit) [] where
  reported := by simp only [Connection.reported, hlog, List.append_nil]
  sends := by
    rw [hlog, ServerEnv.spoken, if_neg hexit]
    exact (List.append_nil _).symm
  standing _ := by simp only [Connection.standing, turn, hlog, hclosed, List.foldl_nil]

/-- **The loop of `on_message` answers** every request that it reports. -/
theorem serve_converses (env : ServerEnv H) {fuel : Nat} (hv : c.readBuf.Valid)
    (hp : Sound c.parser) (hf : turnsLeft c < fuel) :
    ∃ new, Converses env c (c.serveLoop env fuel) new := by
  refine serve_induction (motive := fun c r => ∃ new, Converses env c r new)
    ?empty ?threw ?bad ?wait ?done ?more hv hp hf
  case empty => exact fun _ _ _ => ⟨[], .quiet rfl rfl nofun⟩
  case threw => exact fun _ _ _ _ => ⟨[], .quiet rfl rfl nofun⟩
  case wait => exact fun _ _ _ _ _ _ => ⟨[], .quiet rfl rfl nofun⟩
  case bad =>
    intro c p buf k _ _ _ _ he
    refine ⟨[], ?_, ?_, fun h => absurd rfl h⟩
    · unfold reject
      rw [onClose_reported, sendResponse_reported]
      exact (List.append_nil _).symm
    · rw [(grew_reject env c he buf).sends, reply, if_pos he]
      rfl
  case done =>
    intro c p buf k r _ _ _ _ hd ih
    have hdone : sends (c.complete env p buf).log = _ ∧ (c.complete env p buf).standing = _ :=
      complete_dialogue hd
    obtain ⟨hsends, hstanding⟩ := hdone
    obtain ⟨new, hnew⟩ := ih
    refine ⟨p.request :: new, ?_, ?_, fun h => ?_⟩
    · rw [hnew.reported, complete_reported, List.append_assoc]
      rfl
    · rw [hnew.sends, hsends, hstanding, List.append_assoc]
      exact congrArg _ (env.spoken_append r.2 c.standing [p.request] new).symm
    · rw [hnew.standing h, hstanding]
      rfl
  case more =>
    intro c p buf k r _ _ _ _ _ _ _ ih
    obtain ⟨new, hnew⟩ := ih
    exact ⟨new, hnew.reported, hnew.sends, hnew.standing⟩

variable {stream : Bytes} {exit : Exit}

/-- Nothing finalizes a request on the server path, so each says keep-alive. -/
theorem Served.reported_keepAlive [HeadMemory] (h : Served env stream c exit) :
    ∀ req ∈ c.reported, req.keepAlive = true := by
  intro req hreq
  obtain ⟨e, he, hmatch⟩ := List.mem_filterMap.mp hreq
  cases e with
  | handle p req' handler =>
    cases hmatch
    exact (h.passedOn.2 _ he).2.2
  | send raw result => cases hmatch
  | close => cases hmatch

/-- **Along a run**, whatever is read. -/
theorem Served.converses [HeadMemory] (h : Served env stream c exit) :
    Converses env {} (c, exit) c.reported := by
  induction h with
  | accept => exact .quiet rfl rfl nofun
  | @read stream bs c c' exit h hopen hne hroom hr ih =>
    obtain ⟨hv, hend⟩ := h.valid
    rw [onMessage_data hv hopen hne] at hr
    obtain ⟨new, hnew⟩ := serve_converses env (c := c.received bs) (hv.writeVia hroom) (hend rfl)
      (turnsLeft_lt_serveFuel _)
    rw [hr] at hnew
    have hstanding := ih.standing nofun
    refine ⟨rfl, ?_, fun hexit => ?_⟩
    · rw [hnew.sends, hnew.reported, show sends (c.received bs).log = sends c.log from rfl,
        ih.sends, ServerEnv.spoken_append, ServerEnv.spoken, if_neg nofun, List.append_nil,
        List.append_assoc, show (c.received bs).standing = c.standing from rfl, hstanding]
      rfl
    · rw [hnew.standing hexit, hnew.reported, List.foldl_append,
        show (c.received bs).standing = c.standing from rfl, hstanding]
      rfl

/-- **Whatever bytes a connection reads**, in whatever pieces: it has sent the responses owed to
the requests it has reported, in their order, with a 400 behind them if the last call of
`on_message` rejected what it saw; otherwise it is closed exactly if a `send` failed. -/
theorem responses_follow_requests [HeadMemory] (h : Served env stream c exit) :
    sends c.log = env.spoken exit (0, false) c.reported ∧
      (exit ≠ .badRequest → (c.closed = true ↔ ∃ said ∈ sends c.log, said.2 = none)) := by
  have hall := h.converses
  refine ⟨hall.sends, fun hexit => ?_⟩
  have hclosed : c.closed = (c.reported.foldl env.heard (0, false)).2 :=
    congrArg Prod.snd (hall.standing hexit)
  rw [hclosed, env.heard_closed _ h.reported_keepAlive, hall.sends, ServerEnv.spoken, if_neg hexit]
  simp [Connection.sends, Connection.standing, Connection.turn]

/-- A request line without a version: a 400 and nothing else. -/
theorem responses_follow_requests_malformed :
    ∃ c, Served idleEnv (bytes "GET /\r\n") c .badRequest ∧
      sends c.log = idleEnv.spoken .badRequest (0, false) c.reported ∧ c.reported.length = 0 := by
  have h : Served idleEnv (bytes "GET /\r\n")
      (({} : Connection Unit).onMessage idleEnv (.data (bytes "GET /\r\n"))).1 .badRequest :=
    .read .accept rfl (by decide) (by decide) (Prod.ext rfl (by decide +kernel))
  exact ⟨_, h, (responses_follow_requests h).1, by decide +kernel⟩

/-- While well-formed requests come in, the first of them have been answered, and all of them when
the last byte is there. -/
theorem Served.replies [HeadMemory] {ms : List Message} (hms : ∀ m ∈ ms, m.Prompt)
    (hlen : (encodeAll ms).length ≤ kBlockSize) (h : Served env stream c exit) {future : Bytes}
    (hs : stream ++ future = encodeAll ms) :
    exit = .loopEnd ∧ ∃ done left, ms = done ++ left ∧
      sends c.log = env.dialogue (0, false) (done.map Message.request) ∧
      (future = [] → left = [] ∧ c.readBuf.size = 0) := by
  have hms' : ∀ m ∈ ms, m.Prompt ∧ m.encode.length < sizeMod := fun m hm =>
    ⟨hms m hm, encode_lt_of_mem hm (Nat.lt_of_le_of_lt hlen (by decide))⟩
  have hread : stream.length ≤ kBlockSize := by
    rw [← hs, List.length_append] at hlen
    omega
  obtain ⟨hone, hend⟩ := h.oneBlock hread
  obtain ⟨hexit, done, left, rfl, hreported, hexpect⟩ := h.expect hread hms' hs
  refine ⟨hexit, done, left, rfl, ?_, ?_⟩
  · rw [h.converses.sends, hreported, ServerEnv.spoken, if_neg (by rw [hexit]; nofun)]
    exact List.append_nil _
  · rintro rfl
    -- all has arrived, so a request that is still to come would keep the parser busy
    rw [List.append_nil] at hexpect
    have hstuck : c.readBuf.content = [] ∨ Stuck c.parser c.readBuf.content := by
      have hsettled := (hend hexit).2
      unfold Connection.Settled at hsettled
      rw [hone.window_eq] at hsettled
      exact hsettled.imp id And.left
    obtain ⟨rfl, hnil⟩ :=
      hexpect.nil_of_stuck (fun m hm => hms m (List.mem_append_right _ hm)) hstuck
    exact ⟨rfl, hone.valid.size_eq_zero_iff.mpr hnil⟩

/-- **A client that sends well-formed requests**, pipelined and in whatever pieces, together
no longer than a block, is sent the responses of a server that gets the requests
as values: one for each, in their order. -/
theorem conversation [HeadMemory] {ms : List Message} (hms : ∀ m ∈ ms, m.Prompt)
    (h : Served env (encodeAll ms) c exit) (hlen : (encodeAll ms).length ≤ kBlockSize) :
    exit = .loopEnd ∧ c.readBuf.size = 0 ∧
      sends c.log = env.dialogue (0, false) (ms.map Message.request) ∧
      (sends c.log).length = ms.length := by
  obtain ⟨hexit, done, left, rfl, hsends, hall⟩ := h.replies hms hlen (List.append_nil _)
  obtain ⟨rfl, hempty⟩ := hall rfl
  rw [List.append_nil]
  refine ⟨hexit, hempty, hsends, ?_⟩
  rw [hsends, ServerEnv.length_dialogue, List.length_map]

/-- A request in two pieces, cut in its version. -/
theorem conversation_two_reads :
    ∃ c exit, Served idleEnv (encodeAll [getMessage (bytes "/") (by decide)]) c exit ∧
      sends c.log = idleEnv.dialogue (0, false)
        [(getMessage (bytes "/") (by decide)).request] ∧ (sends c.log).length = 1 := by
  let m := getMessage (bytes "/") (by decide)
  have hm : ∀ m' ∈ [m], m'.Prompt := by
    rintro _ (_ | ⟨_, ⟨⟩⟩)
    trivial
  have h : Served idleEnv (encodeAll [m]) _ .loopEnd :=
    (Served.accept.next (bytes "GET / HT") (by decide +kernel)).next (bytes "TP/1.1\r\n\r\n")
      (by decide +kernel)
  obtain ⟨-, -, hsends, hlen⟩ := conversation hm h (by decide)
  exact ⟨_, _, h, hsends, hlen⟩

end Hound.Http
