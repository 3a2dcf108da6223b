import Hound.Http.Request

/-!
# `HttpResponse`

The response builder of `http/http_response.h`, `.cpp`. `serialize` walks a
`std::unordered_map`, whose iteration order is open: a `HeaderOrder` is any choice of one.
-/

namespace Hound.Http

/-- An iteration order of header maps: every entry once. -/
structure HeaderOrder where
  lines : StringMap → List (Bytes × Bytes)
  perm : ∀ m, (lines m).Perm (m.entries.map fun e => (e.1, e.2))

/-- The order of insertion. -/
def HeaderOrder.inserted : HeaderOrder :=
  ⟨fun m => m.entries.map fun e => (e.1, e.2), fun _ => .refl _⟩

/-- `std::to_string`, and an `int` written to a stream. -/
def decimal (n : Int) : Bytes := bytes (toString n)

structure HttpResponse where
  statusCode : Int := 200
  statusMessage : Bytes := bytes "OK"
  headers : StringMap := ∅
  body : Bytes := []
  cookies : List Bytes := []

namespace HttpResponse

def setStatus (r : HttpResponse) (code : Int) (message : Bytes) : HttpResponse :=
  { r with statusCode := code, statusMessage := message }

def setHeader (r : HttpResponse) (key value : Bytes) : HttpResponse :=
  { r with headers := r.headers.insert key value }

def setContentType (r : HttpResponse) (ct : Bytes) : HttpResponse :=
  r.setHeader (bytes "Content-Type") ct

def setBody (r : HttpResponse) (body : Bytes) : HttpResponse :=
  { r with body := body }.setHeader (bytes "Content-Length") (decimal body.length)

def setKeepAlive (r : HttpResponse) (on : Bool) : HttpResponse :=
  r.setHeader (bytes "Connection") (if on then bytes "keep-alive" else bytes "close")

def ok (body contentType : Bytes) : HttpResponse :=
  let resp : HttpResponse := {}
  let resp := (resp.setStatus 200 (bytes "OK")).setContentType contentType
  if body = [] then resp else resp.setBody body

def notFound (body : Bytes) : HttpResponse :=
  let resp : HttpResponse := {}
  ((resp.setStatus 404 (bytes "Not Found")).setContentType (bytes "text/plain")).setBody body

def appendBody (r : HttpResponse) (chunk : Bytes) : HttpResponse :=
  let body := r.body ++ chunk
  { r with body := body }.setHeader (bytes "Content-Length") (decimal body.length)

/-- `HttpResponse::set_cookie`; the defaults are path `/`, no age and `HttpOnly`. -/
def setCookie (r : HttpResponse) (name value path : Bytes) (maxAge : Int) (httpOnly : Bool) :
    HttpResponse :=
  let cookie := name ++ bytes "=" ++ value ++ bytes "; Path=" ++ path
  let cookie := if 0 < maxAge then cookie ++ bytes "; Max-Age=" ++ decimal maxAge else cookie
  let cookie := if httpOnly then cookie ++ bytes "; HttpOnly" else cookie
  { r with cookies := r.cookies ++ [cookie] }

def internalError (body : Bytes) : HttpResponse :=
  let resp : HttpResponse := {}
  ((resp.setStatus 500 (bytes "Internal Server Error")).setContentType
    (bytes "text/plain")).setBody body

/-- `HttpResponse::redirect`; the default code is 302. -/
def redirect (location : Bytes) (code : Int) : HttpResponse :=
  let resp : HttpResponse := {}
  (resp.setStatus code (if code = 301 then bytes "Moved Permanently" else bytes "Found")).setHeader
    (bytes "Location") location

def json (jsonBody : Bytes) : HttpResponse := ok jsonBody (bytes "application/json; charset=utf-8")

def serialize (order : HeaderOrder) (r : HttpResponse) : Bytes :=
  bytes "HTTP/1.1 " ++ decimal r.statusCode ++ SP :: r.statusMessage ++ crlf ++
    (order.lines r.headers).flatMap (fun h => h.1 ++ bytes ": " ++ h.2 ++ crlf) ++
    r.cookies.flatMap (fun c => bytes "Set-Cookie: " ++ c ++ crlf) ++ crlf ++ r.body

end HttpResponse

end Hound.Http
