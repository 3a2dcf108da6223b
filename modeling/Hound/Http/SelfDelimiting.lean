import Hound.Http.ConnectionRuns

/-!
# Responses a client can find the end of

A handler builds its response by a sequence of `BuildOp`s on the default response.
`set_body`, `append_body`, `not_found` and `internal_error` leave a `Content-Length` that is the
length of the body; `ok` and `json` do so for a body that is not empty, and `redirect` and the
default response have none. `delimited_iff` says for which requests the response of
`handle_request` has one.
-/

namespace Hound.Http

open Connection

variable {H : Type}

abbrev contentLength : Bytes := bytes "Content-Length"

namespace HttpResponse

variable {r : HttpResponse} {order : HeaderOrder}

/-- The header fields that `serialize` writes, in its order. -/
def headerLines (order : HeaderOrder) (r : HttpResponse) : List (Bytes × Bytes) :=
  order.lines r.headers ++ r.cookies.map fun c => (bytes "Set-Cookie", c)

/-- Among them is a `Content-Length` with the decimal length of the body. -/
def SelfDelimiting (order : HeaderOrder) (r : HttpResponse) : Prop :=
  (contentLength, decimal r.body.length) ∈ r.headerLines order

theorem serialize_eq (order : HeaderOrder) (r : HttpResponse) :
    r.serialize order =
      bytes "HTTP/1.1 " ++ decimal r.statusCode ++ SP :: r.statusMessage ++ crlf ++
      (r.headerLines order).flatMap (fun h => h.1 ++ bytes ": " ++ h.2 ++ crlf) ++ crlf ++
      r.body := by
  have hcookie : bytes "Set-Cookie: " = bytes "Set-Cookie" ++ bytes ": " := by decide
  simp only [serialize, headerLines, List.flatMap_append, List.flatMap_map, List.append_assoc,
    hcookie]

theorem SelfDelimiting.line (h : r.SelfDelimiting order) :
    ∃ before after, r.serialize order = before ++
      (contentLength ++ bytes ": " ++ decimal r.body.length ++ crlf) ++ after ++ crlf ++ r.body := by
  obtain ⟨front, back, hsplit⟩ := List.append_of_mem h
  refine ⟨bytes "HTTP/1.1 " ++ decimal r.statusCode ++ SP :: r.statusMessage ++ crlf ++
    front.flatMap (fun h => h.1 ++ bytes ": " ++ h.2 ++ crlf),
    back.flatMap (fun h => h.1 ++ bytes ": " ++ h.2 ++ crlf), ?_⟩
  rw [serialize_eq, hsplit, List.flatMap_append, List.flatMap_cons]
  simp only [List.append_assoc]

theorem selfDelimiting_iff :
    r.SelfDelimiting order ↔ r.headers.lookup contentLength = some (decimal r.body.length) := by
  have hcookie : (contentLength, decimal r.body.length) ∉
      r.cookies.map fun c => (bytes "Set-Cookie", c) := by
    intro h
    obtain ⟨c, -, he⟩ := List.mem_map.mp h
    have hname : bytes "Set-Cookie" ≠ contentLength := by decide
    exact hname (congrArg Prod.fst he)
  rw [SelfDelimiting, headerLines, List.mem_append, or_iff_left hcookie,
    (order.perm r.headers).mem_iff, ← Option.mem_def, AList.mem_lookup_iff]
  constructor
  · intro h
    obtain ⟨⟨k, v⟩, he, hkv⟩ := List.mem_map.mp h
    cases hkv
    exact he
  · intro h
    exact List.mem_map.mpr ⟨_, h, rfl⟩

end HttpResponse

open HttpResponse

/-! ## Builders -/

/-- What a handler does to `*resp`. The header it sets by hand is not `Content-Length`; the
factories are assigned to `*resp`. -/
inductive BuildOp where
  | setStatus (code : Int) (message : Bytes)
  | setHeader (key value : Bytes) (h : key ≠ contentLength)
  | setBody (body : Bytes)
  | appendBody (chunk : Bytes)
  | setCookie (name value path : Bytes) (maxAge : Int) (httpOnly : Bool)
  | ok (body contentType : Bytes)
  | notFound (body : Bytes)
  | internalError (body : Bytes)
  | redirect (location : Bytes) (code : Int)
  | json (jsonBody : Bytes)

namespace BuildOp

def apply (resp : HttpResponse) : BuildOp → HttpResponse
  | setStatus code message => resp.setStatus code message
  | setHeader key value _ => resp.setHeader key value
  | setBody body => resp.setBody body
  | appendBody chunk => resp.appendBody chunk
  | setCookie name value path maxAge httpOnly => resp.setCookie name value path maxAge httpOnly
  | ok body contentType => .ok body contentType
  | notFound body => .notFound body
  | internalError body => .internalError body
  | redirect location code => .redirect location code
  | json jsonBody => .json jsonBody

/-- Whether the response has its length after the operation, if `sized` says so before it. -/
def sizes (sized : Bool) : BuildOp → Bool
  | setStatus .. | setHeader .. | setCookie .. => sized
  | setBody _ | appendBody _ | notFound _ | internalError _ => true
  | ok body _ | json body => body ≠ []
  | redirect .. => false

end BuildOp

/-- The header is the one for the body if `sized`, and absent if not. -/
def Tracks (sized : Bool) (r : HttpResponse) : Prop :=
  r.headers.lookup contentLength = if sized then some (decimal r.body.length) else none

variable {r : HttpResponse} {sized : Bool}

theorem tracks_default : Tracks false {} := rfl

theorem Tracks.setHeader (h : Tracks sized r) {key : Bytes} (hkey : key ≠ contentLength)
    (value : Bytes) : Tracks sized (r.setHeader key value) :=
  (AList.lookup_insert_ne hkey.symm).trans h

theorem tracks_setBody (r : HttpResponse) (body : Bytes) : Tracks true (r.setBody body) :=
  AList.lookup_insert _

theorem tracks_appendBody (r : HttpResponse) (chunk : Bytes) : Tracks true (r.appendBody chunk) :=
  AList.lookup_insert _

theorem tracks_ok (body ct : Bytes) : Tracks (decide (body ≠ [])) (.ok body ct) := by
  have hct : bytes "Content-Type" ≠ contentLength := by decide
  have hempty : Tracks false ((({} : HttpResponse).setStatus 200 (bytes "OK")).setContentType ct) :=
    Tracks.setHeader tracks_default hct ct
  unfold HttpResponse.ok
  simp only
  split
  · next hb => simpa [hb] using hempty
  · next hb => simpa [hb] using tracks_setBody _ body

theorem tracks_notFound (body : Bytes) : Tracks true (.notFound body) := tracks_setBody _ body

theorem tracks_redirect (location : Bytes) (code : Int) :
    Tracks false (.redirect location code) := by
  have hkey : bytes "Location" ≠ contentLength := by decide
  exact Tracks.setHeader (r := ({} : HttpResponse).setStatus code _) tracks_default hkey location

theorem Tracks.apply (h : Tracks sized r) (op : BuildOp) :
    Tracks (op.sizes sized) (op.apply r) := by
  cases op with
  | setStatus code message => exact h
  | setHeader key value hkey => exact h.setHeader hkey value
  | setBody body => exact tracks_setBody r body
  | appendBody chunk => exact tracks_appendBody r chunk
  | setCookie name value path maxAge httpOnly => exact h
  | ok body ct => exact tracks_ok body ct
  | notFound body => exact tracks_notFound body
  | internalError body => exact tracks_setBody _ body
  | redirect location code => exact tracks_redirect location code
  | json jsonBody => exact tracks_ok jsonBody _

/-- Whether the response that a handler builds on the default one has its length. -/
def buildSizes (ops : List BuildOp) : Bool := ops.foldl BuildOp.sizes false

def build (ops : List BuildOp) (resp : HttpResponse) : HttpResponse := ops.foldl BuildOp.apply resp

theorem Tracks.build (h : Tracks sized r) (ops : List BuildOp) :
    Tracks (ops.foldl BuildOp.sizes sized) (build ops r) := by
  induction ops generalizing sized r with
  | nil => exact h
  | cons op ops ih => exact ih (h.apply op)

theorem Tracks.selfDelimiting_iff (h : Tracks sized r) (order : HeaderOrder) :
    r.SelfDelimiting order ↔ sized = true := by
  rw [HttpResponse.selfDelimiting_iff, h]
  cases sized <;> simp

/-! ## `handle_request` -/

/-- The outside in which each handler is the sequence of operations that `script` gives. -/
def ServerEnv.scripted (env : ServerEnv H) (script : Nat → H → HttpRequest → List BuildOp) :
    ServerEnv H :=
  { env with invoke := fun turn f req resp => build (script turn f req) resp }

/-- `route` answers 404 itself: there are routes, and none for path and method. -/
def Router.refuses (router : Router H) (req : HttpRequest) : Bool :=
  match router.root with
  | none => false
  | some root =>
    match root.walk (segments req.path) with
    | none => true
    | some node => (node.handlers.lookup req.method.str).isNone

theorem Router.tracks_route (router : Router H) (req : HttpRequest) :
    Tracks (router.refuses req) (router.route req {}).2 := by
  unfold Router.refuses Router.route
  cases router.root with
  | none => exact tracks_default
  | some root =>
    cases hw : root.walk (segments req.path) with
    | none => simp only [hw]; exact tracks_notFound _
    | some node =>
      simp only [hw]
      cases node.handlers.lookup req.method.str with
      | some handler => exact tracks_default
      | none =>
        simp only
        split <;> exact tracks_notFound _

theorem Router.route_some {router : Router H} {req : HttpRequest} {resp : HttpResponse} {f : H}
    (h : (router.route req resp).1 = some f) : (router.route req resp).2 = resp := by
  unfold Router.route at *
  cases hroot : router.root with
  | none => rfl
  | some root =>
    cases hw : root.walk (segments req.path) with
    | none => simp [hroot, hw] at h
    | some node =>
      cases hl : node.handlers.lookup req.method.str with
      | some handler => simp [hw, hl]
      | none =>
        simp only [hroot, hw, hl] at h
        split at h <;> cases h

/-- Whether the response to `req` has its length: the handler gave it one, the file is not
empty, or the router answers itself. -/
def ServerEnv.sizes (env : ServerEnv H) (script : Nat → H → HttpRequest → List BuildOp)
    (turn : Nat) (req : HttpRequest) : Bool :=
  match (env.router.route req {}).1 with
  | some f => buildSizes (script turn f req)
  | none =>
    if env.staticDir ≠ [] ∧ req.method = .get then
      match env.file turn (env.staticDir ++ req.path) with
      | some file => file.data ≠ []
      | none => env.router.refuses req
    else env.router.refuses req

theorem tracks_respond (env : ServerEnv H) (script : Nat → H → HttpRequest → List BuildOp)
    (c : Connection H) (req : HttpRequest) :
    Tracks (env.sizes script c.turn req) (c.respond (env.scripted script) req).2 := by
  have hroute : (env.scripted script).router.route req {} = env.router.route req {} := rfl
  have hrefuse := env.router.tracks_route req
  unfold respond ServerEnv.sizes
  rw [hroute]
  cases h : (env.router.route req {}).1 with
  | some f =>
    have hresp := Router.route_some h
    simp only [h, hresp]
    exact tracks_default.build _
  | none =>
    simp only [h]
    split
    · next hget =>
      rw [if_pos (show (env.scripted script).staticDir ≠ [] ∧ req.method = .get from hget)]
      cases hfile : env.file c.turn (env.staticDir ++ req.path) with
      | some file =>
        simp only [ServerEnv.scripted, hfile]
        exact tracks_ok file.data _
      | none =>
        simp only [ServerEnv.scripted, hfile]
        exact hrefuse
    · next hget =>
      rw [if_neg (show ¬ ((env.scripted script).staticDir ≠ [] ∧ req.method = .get) from hget)]
      exact hrefuse

/-- The response that `handle_request` passes to `send_response`. -/
def Connection.sent (env : ServerEnv H) (c : Connection H) : HttpResponse :=
  (c.respond env c.parser.request).2.setKeepAlive c.parser.request.keepAlive

theorem handleRequest_eq (env : ServerEnv H) (c : Connection H) :
    c.handleRequest env =
      let req := c.parser.request
      let c' :=
        (c.record (.handle c.parser req (c.respond env req).1)).sendResponse env (c.sent env)
      if req.keepAlive then c' else c'.onClose := rfl

/-- **Responses have a length.** What `handle_request` sends has a `Content-Length` with the length
of its body exactly if the handler left one there, the file it serves is not empty, or the
router answers 404. -/
theorem delimited_iff (env : ServerEnv H) (script : Nat → H → HttpRequest → List BuildOp)
    (c : Connection H) :
    (c.sent (env.scripted script)).SelfDelimiting env.order ↔
      env.sizes script c.turn c.parser.request = true := by
  have hkey : bytes "Connection" ≠ contentLength := by decide
  have h := (tracks_respond env script c c.parser.request).setHeader hkey
    (if c.parser.request.keepAlive then bytes "keep-alive" else bytes "close")
  exact h.selfDelimiting_iff env.order

/-- A server that redirects `GET /` to `/login`. -/
def loginEnv : ServerEnv Unit :=
  { idleEnv with router := ({} : Router Unit).add (bytes "GET") (bytes "/") (some ()) }

def redirectScript : Nat → Unit → HttpRequest → List BuildOp :=
  fun _ _ _ => [.redirect (bytes "/login") 302]

/-- The redirect goes out on a connection that stays open, with nothing that says where it
ends. -/
theorem redirect_undelimited :
    ¬ (({ parser := { state := .done, request := { method := .get, path := bytes "/" } } } :
        Connection Unit).sent (loginEnv.scripted redirectScript)).SelfDelimiting loginEnv.order ∧
      (({} : Connection Unit).onMessage (loginEnv.scripted redirectScript)
        (.data (bytes "GET / HTTP/1.1\r\n\r\n"))).1.log.any (fun e => match e with
          | .send raw _ => raw = bytes
              "HTTP/1.1 302 Found\r\nConnection: keep-alive\r\nLocation: /login\r\n\r\n"
          | _ => false) = true ∧
      (({} : Connection Unit).onMessage (loginEnv.scripted redirectScript)
        (.data (bytes "GET / HTTP/1.1\r\n\r\n"))).1.closed = false := by
  refine ⟨?_, by decide +kernel, by decide +kernel⟩
  rw [HttpResponse.selfDelimiting_iff]
  decide +kernel

end Hound.Http
