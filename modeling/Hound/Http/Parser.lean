import Hound.Http.Request
import Hound.Http.Strtoul
import Hound.Io.Buffer
import Hound.Lib.Consumer
import Hound.Lib.Search
import Mathlib.Data.List.Infix

/-!
# `HttpParser`

The four state parsers and the main loop of `http/http_parser.cpp`. A state parser
is called on a window `[data, data + len)`; it returns the parser it leaves and the
number of bytes it consumed. Three of them look at the window alone.
`parse_chunked_body` hands a pointer into the window to `strtoul` and a length to
`std::string::append`, so it also takes the memory `beyond` the window, and may fault.

`current_header_key_` is cleared by `reset` and never read; it is left out.
-/

namespace Hound.Http

open Lib.Consumer (shift)

inductive State where
  | start
  | requestLine
  | headers
  | body
  | chunkedBody
  | done
  | error
  deriving DecidableEq, Repr

/-- What ends the process in `parse`: `std::length_error` from `append`, or a read
past the memory that holds the data. -/
inductive Fault where
  | lengthError
  | outOfBounds
  deriving DecidableEq, Repr

structure HttpParser where
  state : State := .start
  request : HttpRequest := {}
  contentLength : Nat := 0
  bodyRead : Nat := 0
  tempBody : Bytes := []
  chunkSize : Nat := 0
  readingChunkSize : Bool := true
  chunked : Bool := false

/-- `HttpParser::find_crlf`: the offset of the first CRLF. -/
def findCrlf (w : Bytes) : Option Nat := Lib.findPair CR LF w

def findFrom (c : Byte) (pos : Nat) (s : Bytes) : Option Nat :=
  ((s.drop pos).idxOf? c).map (· + pos)

/-- The least `n` that `append` refuses whatever the string holds:
`std::string::max_size()` lies below `npos - 1`. -/
def appendLimit : Nat := 2 ^ 64 - 2

/-- `dst.append(mem, n)`. -/
def appendFrom (dst mem : Bytes) (n : Nat) : Except Fault Bytes :=
  if appendLimit ≤ n then .error .lengthError
  else if n ≤ mem.length then .ok (dst ++ mem.take n)
  else .error .outOfBounds

theorem appendFrom_ok {dst mem t : Bytes} {n : Nat} (h : appendFrom dst mem n = .ok t) :
    n < appendLimit ∧ n ≤ mem.length ∧ t = dst ++ mem.take n := by
  unfold appendFrom at h
  split at h
  · cases h
  · split at h
    · cases h; exact ⟨by omega, ‹_›, rfl⟩
    · cases h

theorem appendFrom_of_le {dst mem : Bytes} {n : Nat} (hl : n < appendLimit) (hm : n ≤ mem.length) :
    appendFrom dst mem n = .ok (dst ++ mem.take n) := by
  unfold appendFrom; rw [if_neg (by omega), if_pos hm]

namespace HttpParser

/-- `HttpParser()` and the state `reset()` leaves. -/
def new : HttpParser := {}

def reset (_ : HttpParser) : HttpParser := new

def isDone (p : HttpParser) : Bool := p.state = .done

def hasError (p : HttpParser) : Bool := p.state = .error

/-- `take_request`: the finalized request; a moved-from string or map is empty. -/
def takeRequest (p : HttpParser) : HttpRequest × HttpParser :=
  let r := p.request.finalize
  (r, { p with request :=
    { method := r.method, path := [], query := [], version := [], headers := ∅, body := [],
      keepAlive := r.keepAlive } })

/-! ## Request line -/

/-- The request after a request line `METHOD SP PATH SP VERSION`, if it has two spaces. -/
def requestOfLine (r : HttpRequest) (line : Bytes) : Option HttpRequest :=
  match line.idxOf? SP with
  | none => none
  | some sp1 =>
    match findFrom SP (sp1 + 1) line with
    | none => none
    | some sp2 => some { r with
        method := .fromStr (line.take sp1)
        path := (line.drop (sp1 + 1)).take (sp2 - sp1 - 1)
        version := line.drop (sp2 + 1) }

def parseRequestLine (p : HttpParser) (w : Bytes) : HttpParser × Nat :=
  match findCrlf w with
  | none => (p, 0)
  | some lineLen =>
    match requestOfLine p.request (w.take lineLen) with
    | none => ({ p with state := .error }, 0)
    | some r => ({ p with request := r, state := .headers }, lineLen + 2)

/-! ## Headers -/

/-- The empty line: decide how the body is framed. -/
def endOfHeaders (p : HttpParser) : HttpParser :=
  if bytes "chunked" <:+: p.request.header (bytes "Transfer-Encoding") then
    { p with chunked := true, state := .chunkedBody }
  else
    let cl := p.request.header (bytes "Content-Length")
    if cl ≠ [] then
      -- `c_str()` ends in a NUL byte, where the scan stops at the latest
      { p with contentLength := (strtoul (cl ++ [0]) 10).getD 0, state := .body }
    else { p with state := .done }

/-- A header line `Name: Value`; a line without a colon is skipped. -/
def headerLine (p : HttpParser) (line : Bytes) : HttpParser :=
  match line.idxOf? 58 with
  | none => p
  | some colon =>
    { p with request :=
        p.request.addHeader (line.take colon) ((line.drop (colon + 1)).dropWhile (· = SP)) }

def parseHeaders (p : HttpParser) (w : Bytes) : HttpParser × Nat :=
  if w = [] then (p, 0)
  else if crlf <+: w then (p.endOfHeaders, 2)
  else
    match findCrlf w with
    | none => (p, 0)
    | some lineLen =>
      shift (lineLen + 2) ((p.headerLine (w.take lineLen)).parseHeaders (w.drop (lineLen + 2)))
termination_by w.length
decreasing_by
  have : 0 < w.length := List.length_pos_iff.mpr ‹_›
  simp only [List.length_drop]
  omega

/-! ## Bodies -/

def parseBody (p : HttpParser) (w : Bytes) : HttpParser × Nat :=
  let needed := sizeSub p.contentLength p.bodyRead
  let toConsume := min needed w.length
  let p := { p with tempBody := p.tempBody ++ w.take toConsume, bodyRead := p.bodyRead + toConsume }
  if p.contentLength ≤ p.bodyRead then
    ({ p with request := { p.request with body := p.tempBody }, state := .done }, toConsume)
  else (p, toConsume)

def parseChunkedBody (p : HttpParser) (w beyond : Bytes) : Except Fault (HttpParser × Nat) :=
  if w = [] then .ok (p, 0)
  else if p.readingChunkSize then
    match findCrlf w with
    | none => .ok (p, 0)
    | some lineLen =>
      match strtoul (w ++ beyond) 16 with
      | none => .error .outOfBounds
      | some size =>
        if size = 0 then
          .ok ({ p with
            chunkSize := 0, state := .done
            request := { p.request with body := p.tempBody } }, lineLen + 2)
        else
          ({ p with chunkSize := size, readingChunkSize := false }.parseChunkedBody
            (w.drop (lineLen + 2)) beyond).map (shift (lineLen + 2))
  else if w.length < sizeAdd p.chunkSize 2 then
    -- not the whole chunk and its CRLF: take what data there is
    let take := min w.length p.chunkSize
    (appendFrom p.tempBody (w ++ beyond) take).map fun t =>
      ({ p with tempBody := t, chunkSize := p.chunkSize - take }, take)
  else
    match _h : appendFrom p.tempBody (w ++ beyond) p.chunkSize with
    | .error e => .error e
    | .ok t =>
      ({ p with tempBody := t, readingChunkSize := true }.parseChunkedBody
        (w.drop (sizeAdd p.chunkSize 2)) beyond).map (shift (sizeAdd p.chunkSize 2))
termination_by w.length
decreasing_by
  · have : 0 < w.length := List.length_pos_iff.mpr ‹_›
    simp only [List.length_drop]
    omega
  · have : 0 < w.length := List.length_pos_iff.mpr ‹_›
    have hlim := (appendFrom_ok _h).1
    rw [List.length_drop, sizeAdd_of_lt (by unfold appendLimit at hlim; unfold sizeMod; omega)]
    omega

/-! ## The main loop -/

/-- The `switch` of `parse`. A parser that is done or failed consumes nothing. -/
def dispatch (p : HttpParser) (w beyond : Bytes) : Except Fault (HttpParser × Nat) :=
  match p.state with
  | .start | .requestLine => .ok (p.parseRequestLine w)
  | .headers => .ok (p.parseHeaders w)
  | .body => .ok (p.parseBody w)
  | .chunkedBody => p.parseChunkedBody w beyond
  | .done | .error => .ok (p, 0)

/-- The loop of `parse`; the window is the readable part of the first block. A turn
that goes on consumes a byte, so the size of the buffer bounds the number of turns. -/
def parseLoop : Nat → HttpParser → Buffer → Except Fault (HttpParser × Buffer × Nat)
  | 0, p, buf => .ok (p, buf, 0)
  | fuel + 1, p, buf =>
    if buf.size = 0 then .ok (p, buf, 0)
    else
      match p.dispatch (buf.peekData.take buf.peekSize) (buf.peekData.drop buf.peekSize) with
      | .error e => .error e
      | .ok (p, consumed) =>
        if consumed = 0 then .ok (p, buf, 0)
        else (parseLoop fuel p (buf.retrieve consumed)).map fun r =>
          (r.1, r.2.1, consumed + r.2.2)

def parse (p : HttpParser) (buf : Buffer) : Except Fault (HttpParser × Buffer × Nat) :=
  parseLoop buf.size p buf

end HttpParser

end Hound.Http
