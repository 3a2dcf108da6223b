import Hound.Http.Message
import Hound.Http.Router

/-!
# The server side of a connection

`on_message`, `handle_request`, `send_response` and `on_close` of
`http/http_server.cpp` on one connection. What the outside decides is a `ServerEnv`:
the routes, the files, the handlers' answers and the outcome of every `send`, each of
which may differ from call to call. A `Connection` keeps the events it caused, newest
last. `Served env stream c exit`: reads have brought an accepted connection to `c`.

Timers, channels and the connection table do not bear on one connection's requests and
are left out, and so is logging.
-/

namespace Hound.Http

/-- A path that `std::ifstream` could open. So it can a directory, of which nothing can be read. -/
structure OpenFile where
  /-- What `<< file.rdbuf()` gives. -/
  data : Bytes
  /-- A read failed. -/
  failed : Bool := false
  deriving DecidableEq

/-- The outside of a server whose handlers are values of `H`. -/
structure ServerEnv (H : Type) where
  router : Router H
  staticDir : Bytes
  /-- What is found at a path, if it can be opened. -/
  file : Nat → Bytes → Option OpenFile
  /-- A handler's answer. -/
  invoke : Nat → H → HttpRequest → HttpResponse → HttpResponse
  /-- What `Socket::write` returns: the number of bytes taken, or an error. -/
  send : Nat → Bytes → Option Nat
  order : HeaderOrder

/-- A server without routes and files, on which every `send` succeeds. -/
def idleEnv : ServerEnv Unit where
  router := {}
  staticDir := []
  file _ _ := none
  invoke _ _ _ resp := resp
  send _ raw := some raw.length
  order := .inserted

inductive Event (H : Type) where
  /-- `handle_request` with the parser `p`: the request it passes on and the handler it calls. -/
  | handle (p : HttpParser) (req : HttpRequest) (handler : Option H)
  | send (raw : Bytes) (result : Option Nat)
  | close

structure Connection (H : Type) where
  readBuf : Buffer := by exact .new
  parser : HttpParser := .new
  closed : Bool := false
  log : List (Event H) := []

/-- How `on_message` ended. -/
inductive Exit where
  | loopEnd
  | badRequest
  | closedFirst
  | threw (e : Fault)
  deriving DecidableEq

inductive ReadOutcome where
  | fail
  | data (bs : Bytes)

namespace Connection

variable {H : Type} (env : ServerEnv H)

/-- Which call of the outside comes next. -/
def turn (c : Connection H) : Nat := c.log.length

def record (c : Connection H) (e : Event H) : Connection H := { c with log := c.log ++ [e] }

def onClose (c : Connection H) : Connection H :=
  if c.closed then c else { c with closed := true }.record .close

def sendResponse (c : Connection H) (resp : HttpResponse) : Connection H :=
  let raw := resp.serialize env.order
  let result := env.send c.turn raw
  let c := c.record (.send raw result)
  match result with
  | none => c.onClose
  | some _ => c

/-- The response of `handle_request` before its keep-alive header. -/
def respond (c : Connection H) (req : HttpRequest) : Option H × HttpResponse :=
  let (handler, resp) := env.router.route req {}
  match handler with
  | some f => (handler, env.invoke c.turn f req resp)
  | none =>
    if env.staticDir ≠ [] ∧ req.method = .get then
      match env.file c.turn (env.staticDir ++ req.path) with
      | some file => (none, .ok file.data (bytes "text/html"))
      | none => (none, resp)
    else (none, resp)

def handleRequest (c : Connection H) : Connection H :=
  let req := c.parser.request
  let (handler, resp) := c.respond env req
  let resp := resp.setKeepAlive req.keepAlive
  let c := (c.record (.handle c.parser req handler)).sendResponse env resp
  if req.keepAlive then c else c.onClose

/-- The loop of `on_message`. After `reset` the parser is not done, so a turn that
handled a request always goes on. `serveFuel` covers the turns (`serve_induction`). -/
def serveLoop : Nat → Connection H → Connection H × Exit
  | 0, c => (c, .loopEnd)
  | fuel + 1, c =>
    if c.readBuf.size = 0 then (c, .loopEnd)
    else
      match c.parser.parse c.readBuf with
      | .error e => (c, .threw e)
      | .ok (p, buf, consumed) =>
        let c := { c with parser := p, readBuf := buf }
        if p.hasError then
          ((c.sendResponse env (.notFound (bytes "400 Bad Request"))).onClose, .badRequest)
        else if p.isDone then
          let c := c.handleRequest env
          serveLoop fuel { c with parser := c.parser.reset }
        else if consumed = 0 then (c, .loopEnd)
        else serveLoop fuel c

/-- A turn consumes a byte, or it finds a request complete and resets the parser. -/
def serveFuel (c : Connection H) : Nat := 2 * c.readBuf.size + 2

/-- `HttpServer::on_message`, when the read has the outcome `r`. -/
def onMessage (c : Connection H) (r : ReadOutcome) : Connection H × Exit :=
  if c.closed then (c, .closedFirst)
  else
    let (buf, writable, ptr) := c.readBuf.beginWrite
    let c := { c with readBuf := buf }
    if writable = 0 then (c.onClose, .closedFirst)
    else
      match r with
      | .fail => (c.onClose, .closedFirst)
      | .data [] => (c.onClose, .closedFirst)
      | .data bs =>
        let c := { c with readBuf := (buf.storeAt ptr bs).hasWritten bs.length }
        serveLoop env c.serveFuel c

end Connection

/-- A connection that was accepted and has read `stream`. Every read returned between one
byte and as many as the buffer offered; the last call of `on_message` ended with `exit`. -/
inductive Served [HeadMemory] {H : Type} (env : ServerEnv H) :
    Bytes → Connection H → Exit → Prop where
  | accept : Served env [] {} .loopEnd
  | read {stream bs : Bytes} {c c' : Connection H} {exit : Exit} (h : Served env stream c .loopEnd)
      (hopen : c.closed = false) (hne : bs ≠ []) (hroom : bs.length ≤ c.readBuf.room)
      (hr : c.onMessage env (.data bs) = (c', exit)) : Served env (stream ++ bs) c' exit

end Hound.Http
