import Hound.Basic
import Mathlib.Data.List.AList
import Mathlib.Data.List.Infix

/-!
# `HttpRequest`

The request the parser builds (`http/http_request.h`, `.cpp`). A
`std::unordered_map<std::string, std::string>` is an association list without
repeated keys: `headers_[key] = value` is `insert`, `find` is `lookup`.
-/

namespace Hound.Http

/-- `std::unordered_map<std::string, std::string>`. -/
abbrev StringMap := AList fun _ : Bytes => Bytes

inductive Method where
  | get
  | post
  | put
  | httpDelete
  | head
  | options
  | patch
  | unknown
  deriving DecidableEq, Repr

def Method.str : Method → Bytes
  | .get => bytes "GET"
  | .post => bytes "POST"
  | .put => bytes "PUT"
  | .httpDelete => bytes "DELETE"
  | .head => bytes "HEAD"
  | .options => bytes "OPTIONS"
  | .patch => bytes "PATCH"
  | .unknown => bytes "UNKNOWN"

def Method.fromStr (s : Bytes) : Method :=
  if s = bytes "GET" then .get
  else if s = bytes "POST" then .post
  else if s = bytes "PUT" then .put
  else if s = bytes "DELETE" then .httpDelete
  else if s = bytes "HEAD" then .head
  else if s = bytes "OPTIONS" then .options
  else if s = bytes "PATCH" then .patch
  else .unknown

structure HttpRequest where
  method : Method := .unknown
  path : Bytes := []
  query : Bytes := []
  version : Bytes := bytes "HTTP/1.1"
  headers : StringMap := ∅
  body : Bytes := []
  keepAlive : Bool := true

namespace HttpRequest

def addHeader (r : HttpRequest) (key value : Bytes) : HttpRequest :=
  { r with headers := r.headers.insert key value }

def header (r : HttpRequest) (key : Bytes) : Bytes := (r.headers.lookup key).getD []

theorem header_addHeader (r : HttpRequest) (key value k : Bytes) :
    (r.addHeader key value).header k = if k = key then value else r.header k := by
  unfold addHeader header
  split
  · next h => subst h; simp
  · next h => rw [AList.lookup_insert_ne h]

/-- `keep_alive_` as `finalize` computes it. -/
def finalKeepAlive (r : HttpRequest) : Bool :=
  let conn := r.header (bytes "Connection")
  if r.version = bytes "HTTP/1.0" then conn = bytes "keep-alive" ∨ conn = bytes "Keep-Alive"
  else conn ≠ bytes "close" ∧ conn ≠ bytes "Close"

/-- `HttpRequest::finalize`: split the query string off the path and decide on keep-alive. -/
def finalize (r : HttpRequest) : HttpRequest :=
  let r := match r.path.idxOf? 63 with
    | some pos => { r with query := r.path.drop (pos + 1), path := r.path.take pos }
    | none => r
  { r with keepAlive := r.finalKeepAlive }

theorem finalize_keepAlive (r : HttpRequest) : r.finalize.keepAlive = r.finalKeepAlive := by
  unfold finalize
  split <;> rfl

/-! ## What handlers read -/

/-- The lines that `std::getline(iss, line, delim)` reads one after the other. A delimiter at
the end opens no further line. -/
def getlines (delim : Byte) : Bytes → List Bytes
  | [] => []
  | b :: s =>
    if b = delim then [] :: getlines delim s
    else match getlines delim s with
      | [] => [[b]]
      | l :: ls => (b :: l) :: ls

/-- The loop of `query_params` and `form_data`: `key=value` pairs between `&`; a later pair
replaces an earlier one. -/
def keyValues (text : Bytes) : StringMap :=
  (getlines 38 text).foldl (fun params pair =>
    match pair.idxOf? 61 with
    | some pos => params.insert (pair.take pos) (pair.drop (pos + 1))
    | none => params.insert pair []) ∅

def queryParams (r : HttpRequest) : StringMap := if r.query = [] then ∅ else keyValues r.query

def formData (r : HttpRequest) : StringMap :=
  if bytes "application/x-www-form-urlencoded" <:+: r.header (bytes "Content-Type") then
    keyValues r.body
  else ∅

/-- The value of the first cookie with this name, empty when there is none. -/
def cookie (r : HttpRequest) (name : Bytes) : Bytes :=
  let cookieHeader := r.header (bytes "Cookie")
  if cookieHeader = [] then []
  else ((getlines 59 cookieHeader).findSome? fun item =>
    let item := item.dropWhile (· = SP)
    match item.idxOf? 61 with
    | some pos => if item.take pos = name then some (item.drop (pos + 1)) else none
    | none => none).getD []

end HttpRequest

end Hound.Http
