import Hound.Http.ServeLoop

/-!
# What handlers see

`handle_request` passes on the parser's request as it is; only `take_request` finalizes
it. Nothing on the way to `DONE` touches `keep_alive_` (`dispatch_keepAlive`), so along a
run every request passed on says keep-alive (`Served.passedOn`).
`take_request_agrees_iff`: it is the request `take_request` would return if and only if
the target has no `?` and finalizing leaves the connection open.
-/

namespace Hound.Http

open Lib Lib.Consumer HttpParser Connection

/-! ## `finalize` -/

namespace HttpRequest

theorem finalize_query (r : HttpRequest) {path query : Bytes} (hn : 63 ∉ path)
    (hp : r.path = path ++ 63 :: query) :
    r.finalize =
      { r with path := path, query := query, keepAlive := r.finalKeepAlive } := by
  have hdrop : r.path.drop (path.length + 1) = query := by
    rw [hp, List.drop_append, List.drop_eq_nil_of_le (Nat.le_succ _), Nat.add_sub_cancel_left]
    rfl
  have htake : r.path.take path.length = path := by rw [hp, List.take_left]
  have hpos : r.path.idxOf? 63 = some path.length := by rw [hp, idxOf?_append_cons query hn]
  unfold finalize
  simp only [hpos, htake, hdrop]
  rfl

theorem finalize_plain (r : HttpRequest) (hn : 63 ∉ r.path) :
    r.finalize = { r with keepAlive := r.finalKeepAlive } := by
  unfold finalize
  rw [List.idxOf?_eq_none_iff.mpr hn]

theorem eq_finalize_iff {r : HttpRequest} (hk : r.keepAlive = true) :
    r = r.finalize ↔ 63 ∉ r.path ∧ r.finalKeepAlive = true := by
  constructor
  · intro h
    have hpath : 63 ∉ r.path := fun hm => by
      obtain ⟨path, query, hp, hn⟩ := List.eq_append_cons_of_mem hm
      have hsame : r.path = path := by
        have hpath := congrArg HttpRequest.path h
        rwa [r.finalize_query hn hp] at hpath
      rw [hsame] at hm
      exact hn hm
    refine ⟨hpath, ?_⟩
    rw [r.finalize_plain hpath] at h
    exact (congrArg HttpRequest.keepAlive h).symm.trans hk
  · rintro ⟨hpath, hfin⟩
    rw [r.finalize_plain hpath, hfin, ← hk]

end HttpRequest

/-! ## `keep_alive_` before `finalize` -/

variable {p q : HttpParser} {w beyond : Bytes}

theorem parseHeaders_keepAlive (p : HttpParser) (w : Bytes) :
    (p.parseHeaders w).1.request.keepAlive = p.request.keepAlive := by
  fun_induction parseHeaders p w with
  | case1 p => rfl
  | case2 p w => rw [endOfHeaders_request]
  | case3 p => rfl
  | case4 p w _ _ i hf ih =>
    rw [shift_fst, ih]
    unfold headerLine
    split <;> rfl

/-- **No state parser sets `keep_alive_`.** -/
theorem dispatch_keepAlive (h : Sound p) {c : Nat} (hd : p.dispatch w beyond = .ok (q, c)) :
    q.request.keepAlive = p.request.keepAlive := by
  rcases state_cases p with hp | hs | hs
  · rw [dispatch_plain hp, Except.ok.injEq] at hd
    rw [show q = (p.plainStep w).1 by rw [hd]]
    rcases plain_cases hp with ⟨-, he⟩ | ⟨-, he⟩ | ⟨-, he⟩ <;> rw [he]
    · rcases parseRequestLine_cases p w with ⟨-, hr⟩ | ⟨i, -, -, hr⟩ | ⟨i, r, -, hreq, hr⟩ <;>
        rw [hr]
      obtain ⟨_, _, _, rfl⟩ := requestOfLine_eq hreq
      rfl
    · exact parseHeaders_keepAlive p w
    · unfold parseBody
      simp only
      split <;> rfl
  · rw [dispatch_chunked hs] at hd
    refine chunk_induction (motive := fun p w r => ∀ q c, r = .ok (q, c) →
      q.request.keepAlive = p.request.keepAlive)
      ?wait ?off ?last ?size ?overflow ?part ?full h.size_lt q c hd
    case wait => rintro p w - q c ⟨⟩; rfl
    case off => rintro _ _ _ _ _ _ _ _ h; cases h
    case last => rintro p w i - - - q c ⟨⟩; rfl
    case size =>
      rintro p w i n (e | a) - - - - ih q c hq
      · cases hq
      · cases hq; exact ih a.1 a.2 rfl
    case overflow => rintro _ _ _ _ _ _ _ h; cases h
    case part => rintro p w - - - - q c ⟨⟩; rfl
    case full =>
      rintro p w (e | a) - - - ih q c hq
      · cases hq
      · cases hq; exact ih a.1 a.2 rfl
  · rw [dispatch_stopped hs] at hd
    cases hd
    rfl

/-! ## The events of a run -/

variable {H : Type} {env : ServerEnv H} {c : Connection H}

/-- How a request is passed on: as the parser holds it, to the handler `route` finds for
it, and to be kept alive. -/
def PassedOn (env : ServerEnv H) : Event H → Prop
  | .handle p req handler =>
    req = p.request ∧ handler = (env.router.route req {}).1 ∧ req.keepAlive = true
  | _ => True

def AllPassedOn (env : ServerEnv H) (c : Connection H) : Prop := ∀ e ∈ c.log, PassedOn env e

theorem AllPassedOn.record (h : AllPassedOn env c) {e : Event H} (he : PassedOn env e) :
    AllPassedOn env (c.record e) := by
  intro e' he'
  rcases List.mem_append.mp he' with hm | hm
  · exact h e' hm
  · rw [List.mem_singleton.mp hm]; exact he

theorem AllPassedOn.onClose (h : AllPassedOn env c) : AllPassedOn env c.onClose := by
  unfold Connection.onClose
  split
  · exact h
  · exact AllPassedOn.record (c := { c with closed := true }) (e := .close) h trivial

theorem AllPassedOn.sendResponse (h : AllPassedOn env c) (resp : HttpResponse) :
    AllPassedOn env (c.sendResponse env resp) := by
  unfold Connection.sendResponse
  simp only
  have hsent (raw : Bytes) (result : Option Nat) : AllPassedOn env (c.record (.send raw result)) :=
    AllPassedOn.record (e := .send raw result) h trivial
  split
  · exact (hsent _ _).onClose
  · exact hsent _ _

theorem respond_fst (req : HttpRequest) : (c.respond env req).1 = (env.router.route req {}).1 := by
  unfold respond
  simp only
  split
  · rfl
  · next hnone =>
    rw [hnone]
    split
    · split <;> rfl
    · rfl

theorem AllPassedOn.handleRequest (h : AllPassedOn env c)
    (hk : c.parser.request.keepAlive = true) : AllPassedOn env (c.handleRequest env) := by
  have hev : PassedOn env (.handle c.parser c.parser.request (c.respond env c.parser.request).1) :=
    ⟨rfl, respond_fst _, hk⟩
  unfold Connection.handleRequest
  simp only [if_pos hk]
  exact (h.record hev).sendResponse _

/-- **The loop passes requests on** as they are. -/
theorem serve_passedOn (env : ServerEnv H) {fuel : Nat} (hv : c.readBuf.Valid)
    (hp : Sound c.parser) (hf : turnsLeft c < fuel) (hk : c.parser.request.keepAlive = true)
    (h : AllPassedOn env c) :
    (c.serveLoop env fuel).1.parser.request.keepAlive = true ∧
      AllPassedOn env (c.serveLoop env fuel).1 := by
  have hkeep {p q : HttpParser} {b b' : Buffer} {k : Nat} (hv : b.Valid) (hp : Sound p)
      (hk : p.request.keepAlive = true) (hr : p.parse b = .ok (q, b', k)) :
      q.request.keepAlive = true :=
    (parse_keeps (I := fun p => Sound p ∧ p.request.keepAlive = true) (J := fun _ => True)
      (fun h hd => ⟨h.1.dispatch hd, (dispatch_keepAlive h.1 hd).trans h.2⟩) (fun _ h => h) hv
      ⟨hp, hk⟩ trivial hr).1.2
  refine serve_induction (motive := fun c r => c.parser.request.keepAlive = true →
    AllPassedOn env c → r.1.parser.request.keepAlive = true ∧ AllPassedOn env r.1)
    ?empty ?threw ?bad ?wait ?done ?more hv hp hf hk h
  case empty => intro c _ _ _ hk h; exact ⟨hk, h⟩
  case threw => intro c e _ _ _ _ hk h; exact ⟨hk, h⟩
  case bad =>
    intro c p buf k hv hp _ hr _ hk h
    rw [parser_reject]
    exact ⟨hkeep hv hp hk hr, (AllPassedOn.sendResponse (c := c.parsed p buf) h _).onClose⟩
  case wait => intro c p buf hv hp _ hr _ _ hk h; exact ⟨hkeep hv hp hk hr, h⟩
  case done =>
    intro c p buf k r hv hp _ hr _ ih hk h
    exact ih rfl (AllPassedOn.handleRequest (c := c.parsed p buf) h (hkeep hv hp hk hr))
  case more =>
    intro c p buf k r hv hp _ hr _ _ _ ih hk h
    exact ih (hkeep hv hp hk hr) h

variable {stream : Bytes} {exit : Exit}

theorem Served.passedOn [HeadMemory] (h : Served env stream c exit) :
    c.parser.request.keepAlive = true ∧ AllPassedOn env c := by
  induction h with
  | accept => exact ⟨rfl, fun _ he => nomatch he⟩
  | @read stream bs c c' exit h hopen hne hroom hr ih =>
    obtain ⟨hv, hend⟩ := h.valid
    rw [onMessage_data hv hopen hne] at hr
    have hloop := serve_passedOn env (c := c.received bs) (hv.writeVia hroom) (hend rfl)
      (turnsLeft_lt_serveFuel _) ih.1 ih.2
    rwa [hr] at hloop

/-- The connection is closed right after the response, or was closed before. -/
def ClosedAfter (pre post : List (Event H)) : Prop :=
  .close ∈ pre ∨ ∃ raw result rest, post = .send raw result :: .close :: rest

/-- **When the server path agrees with `take_request`.** For every request completed in
a run, the request passed on is the one `take_request` returns, the handler is the one
`route` finds for that, and the connection is closed where that asks for it, if and only
if the target has no `?` and finalizing the request leaves it to be kept alive. -/
theorem take_request_agrees_iff [HeadMemory] (h : Served env stream c exit)
    {pre post : List (Event H)}
    {p : HttpParser} {req : HttpRequest} {handler : Option H}
    (hlog : c.log = pre ++ .handle p req handler :: post) :
    (req = p.takeRequest.1 ∧ handler = (env.router.route p.takeRequest.1 {}).1 ∧
      (p.takeRequest.1.keepAlive = false → ClosedAfter pre post)) ↔
      (63 ∉ p.request.path ∧ p.request.finalKeepAlive = true) := by
  obtain ⟨rfl, hhandler, hk⟩ : req = p.request ∧ handler = (env.router.route req {}).1 ∧
      req.keepAlive = true :=
    h.passedOn.2 (.handle p req handler) (by rw [hlog]; simp)
  change (p.request = p.request.finalize ∧ _) ↔ _
  rw [← HttpRequest.eq_finalize_iff hk]
  constructor
  · exact And.left
  · intro heq
    change _ ∧ handler = (env.router.route p.request.finalize {}).1 ∧
      (p.request.finalize.keepAlive = false → _)
    rw [← heq]
    exact ⟨rfl, hhandler, fun hclose => absurd (hk.symm.trans hclose) Bool.noConfusion⟩

/-! ## Two runs -/

/-- A `handle` event that `f` accepts. -/
def Event.handles (f : HttpParser → HttpRequest → Option H → Bool) : Event H → Bool
  | .handle p req handler => f p req handler
  | _ => false

theorem exists_handle {log : List (Event H)} {f : HttpParser → HttpRequest → Option H → Bool}
    (h : log.any (Event.handles f) = true) :
    ∃ pre post p req handler, log = pre ++ .handle p req handler :: post ∧
      f p req handler = true := by
  obtain ⟨e, hmem, he⟩ := List.any_eq_true.mp h
  obtain ⟨pre, post, hlog⟩ := List.append_of_mem hmem
  cases e with
  | handle p req handler => exact ⟨pre, post, p, req, handler, hlog, he⟩
  | send raw result => cases he
  | close => cases he

/-- A server with one route, `GET /a`. -/
def oneRoute : ServerEnv Unit :=
  { idleEnv with router := Router.add {} (bytes "GET") (bytes "/a") (some ()) }

/-- A plain path: the handler gets what `take_request` would return. -/
theorem take_request_agrees_plain :
    ∃ c pre post p req handler, Served oneRoute (bytes "GET /a HTTP/1.1\r\n\r\n") c .loopEnd ∧
      c.log = pre ++ .handle p req handler :: post ∧ req = p.takeRequest.1 ∧
      handler = (oneRoute.router.route p.takeRequest.1 {}).1 := by
  have h : Served oneRoute (bytes "GET /a HTTP/1.1\r\n\r\n") _ .loopEnd :=
    Served.accept.next (bytes "GET /a HTTP/1.1\r\n\r\n") (by decide +kernel)
  obtain ⟨pre, post, p, req, handler, hlog, hplain⟩ := exists_handle (H := Unit)
    (f := fun p _ _ => 63 ∉ p.request.path ∧ p.request.finalKeepAlive = true)
    (show List.any (Connection.onMessage oneRoute {}
      (.data (bytes "GET /a HTTP/1.1\r\n\r\n"))).1.log _ = true by decide +kernel)
  obtain ⟨hreq, hhandler, -⟩ := (take_request_agrees_iff h hlog).mpr (of_decide_eq_true hplain)
  exact ⟨_, pre, post, p, req, handler, h, hlog, hreq, hhandler⟩

/-- A target with a query, from a client that wants the connection closed: no handler is
found, though there is one for what `take_request` returns, and the connection stays open. -/
theorem query_misses_handler :
    ∃ c pre post p req, Served oneRoute (bytes "GET /a?x=1 HTTP/1.0\r\n\r\n") c .loopEnd ∧
      c.log = pre ++ .handle p req none :: post ∧ req ≠ p.takeRequest.1 ∧
      (oneRoute.router.route p.takeRequest.1 {}).1 = some () ∧
      p.takeRequest.1.keepAlive = false ∧ c.closed = false := by
  have h : Served oneRoute (bytes "GET /a?x=1 HTTP/1.0\r\n\r\n") _ .loopEnd :=
    Served.accept.next (bytes "GET /a?x=1 HTTP/1.0\r\n\r\n") (by decide +kernel)
  obtain ⟨pre, post, p, req, handler, hlog, hev⟩ := exists_handle (H := Unit)
    (f := fun p req handler => handler = none ∧ req.path ≠ p.takeRequest.1.path ∧
      (oneRoute.router.route p.takeRequest.1 {}).1 = some () ∧ p.takeRequest.1.keepAlive = false)
    (show List.any (Connection.onMessage oneRoute {}
      (.data (bytes "GET /a?x=1 HTTP/1.0\r\n\r\n"))).1.log _ = true by decide +kernel)
  obtain ⟨rfl, hpath, hroute, hclose⟩ := of_decide_eq_true hev
  exact ⟨_, pre, post, p, req, h, hlog, fun he => hpath (congrArg HttpRequest.path he), hroute,
    hclose, by decide +kernel⟩

end Hound.Http
