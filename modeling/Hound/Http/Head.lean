import Hound.Http.ParserLaws

/-!
# Request heads

`Head` is a request line and a header list as a client may send them, `Head.encode`
its bytes. `head_round_trip`: from a fresh parser, the request line and the header
section are consumed exactly, whatever follows them, and what the parser then holds
is what was encoded (`Head.parsed`).
-/

namespace Hound.Http

open Lib Lib.Consumer

/-- No delimiter of the request line occurs in `s`. -/
def Token (s : Bytes) : Prop := SP ∉ s ∧ CR ∉ s ∧ LF ∉ s

/-- A header name has no delimiter, a value no line break and no leading space. -/
def HeaderOk (h : Bytes × Bytes) : Prop :=
  (58 ∉ h.1 ∧ CR ∉ h.1 ∧ LF ∉ h.1) ∧ CR ∉ h.2 ∧ LF ∉ h.2 ∧ h.2.head? ≠ some SP

instance (s : Bytes) : Decidable (Token s) := inferInstanceAs (Decidable (_ ∧ _))

instance (h : Bytes × Bytes) : Decidable (HeaderOk h) := inferInstanceAs (Decidable (_ ∧ _))

structure Head where
  method : Bytes
  path : Bytes
  version : Bytes
  headers : List (Bytes × Bytes)
  method_ok : Token method
  path_ok : Token path
  version_ok : Token version
  headers_ok : ∀ h ∈ headers, HeaderOk h

def requestText (method path version : Bytes) : Bytes := method ++ SP :: path ++ SP :: version

/-- `Name: Value`. -/
def headerText (h : Bytes × Bytes) : Bytes := h.1 ++ 58 :: SP :: h.2

def encodeHeaders (hs : List (Bytes × Bytes)) : Bytes := hs.flatMap fun h => headerText h ++ crlf

namespace Head

def encode (h : Head) : Bytes :=
  requestText h.method h.path h.version ++ crlf ++ (encodeHeaders h.headers ++ crlf)

/-- The last value given for a name, empty for a name not listed. -/
def value (h : Head) (k : Bytes) : Bytes := (h.headers.reverse.lookup k).getD []

def Chunked (h : Head) : Prop := bytes "chunked" <:+: h.value (bytes "Transfer-Encoding")

instance (h : Head) : Decidable h.Chunked := inferInstanceAs (Decidable (_ <:+: _))

def lengthText (h : Head) : Bytes := h.value (bytes "Content-Length")

end Head

/-! ## One line -/

def IsLine (l : Bytes) : Prop := findCrlf l = none

instance (l : Bytes) : Decidable (IsLine l) := inferInstanceAs (Decidable (_ = none))

section Line

variable {line : Bytes}

theorem isLine_of_notMem (h : CR ∉ line) : IsLine line := findPair_eq_none_of_notMem h

theorem IsLine.findCrlf (h : IsLine line) (rest : Bytes) :
    findCrlf (line ++ crlf ++ rest) = some line.length := by
  rw [List.append_assoc]
  exact findPair_of_none (by decide) rest h

theorem take_line (line rest : Bytes) : (line ++ crlf ++ rest).take line.length = line := by
  rw [List.append_assoc, List.take_left]

theorem drop_line (line rest : Bytes) : (line ++ crlf ++ rest).drop (line.length + 2) = rest := by
  rw [show line.length + 2 = (line ++ crlf).length by simp, List.drop_left]

theorem IsLine.not_starts (h : IsLine line) (hne : line ≠ []) (rest : Bytes) :
    ¬ crlf <+: line ++ crlf ++ rest := by
  rintro ⟨t, ht⟩
  have h0 : Http.findCrlf (crlf ++ t) = some 0 := by simp [Http.findCrlf, findPair_cons_cons]
  rw [ht, h.findCrlf rest, Option.some.injEq, List.length_eq_zero_iff] at h0
  exact hne h0

end Line

namespace HttpParser

theorem requestOfLine_text {method path version : Bytes} (hm : SP ∉ method) (hp : SP ∉ path)
    (r : HttpRequest) :
    requestOfLine r (requestText method path version) =
      some { r with method := .fromStr method, path := path, version := version } := by
  have h1 : (requestText method path version).idxOf? SP = some method.length := by
    rw [requestText, List.append_assoc, List.cons_append]
    exact idxOf?_append_cons _ hm
  have hdrop : (requestText method path version).drop (method.length + 1) =
      path ++ SP :: version := by
    rw [requestText, List.append_assoc, List.cons_append, ← List.drop_drop, List.drop_left]
    rfl
  have h2 : findFrom SP (method.length + 1) (requestText method path version) =
      some (path.length + (method.length + 1)) := by
    rw [findFrom, hdrop, idxOf?_append_cons _ hp]
    rfl
  have h3 : (requestText method path version).drop (path.length + (method.length + 1) + 1) =
      version := by
    rw [show path.length + (method.length + 1) + 1 = method.length + 1 + (path.length + 1) by omega,
      ← List.drop_drop, hdrop, ← List.drop_drop, List.drop_left]
    rfl
  simp only [requestOfLine, h1, h2, h3, hdrop]
  congr
  · rw [requestText, List.append_assoc, List.take_left]
  · rw [show path.length + (method.length + 1) - method.length - 1 = path.length by omega]
    rw [List.take_left]

theorem headerLine_text {h : Bytes × Bytes} (hok : HeaderOk h) (p : HttpParser) :
    p.headerLine (headerText h) = { p with request := p.request.addHeader h.1 h.2 } := by
  have h1 : (headerText h).idxOf? 58 = some h.1.length := idxOf?_append_cons _ hok.1.1
  have h2 : (headerText h).drop (h.1.length + 1) = SP :: h.2 := List.drop_length_add_append 1
  have h3 : (SP :: h.2).dropWhile (· = SP) = h.2 := by
    rw [List.dropWhile_cons]
    simp only [decide_true, if_true]
    cases hv : h.2 with
    | nil => rfl
    | cons b t =>
      have hb : b ≠ SP := fun e => hok.2.2.2 (by rw [hv, e]; rfl)
      simp [hb]
  simp only [headerLine, h1, h2, h3]
  rw [headerText, List.take_left]

/-- The parser that has read the headers `hs`. -/
def withHeaders (p : HttpParser) (hs : List (Bytes × Bytes)) : HttpParser :=
  { p with request := hs.foldl (fun r h => r.addHeader h.1 h.2) p.request }

def readLines (p : HttpParser) (lines : List Bytes) : HttpParser := lines.foldl headerLine p

theorem parseHeaders_lines (rest : Bytes) :
    ∀ (lines : List Bytes) (p : HttpParser), (∀ l ∈ lines, IsLine l ∧ l ≠ []) →
      p.parseHeaders (lines.flatMap (· ++ crlf) ++ crlf ++ rest) =
        ((p.readLines lines).endOfHeaders, (lines.flatMap (· ++ crlf) ++ crlf).length)
  | [], p, _ => parseHeaders_empty_line p (List.prefix_append crlf rest)
  | l :: lines, p, h => by
    obtain ⟨⟨hl, hne⟩, hrest⟩ := List.forall_mem_cons.mp h
    have ih := parseHeaders_lines rest lines (p.headerLine l) hrest
    have hsplit : (l :: lines).flatMap (· ++ crlf) ++ crlf ++ rest =
        l ++ crlf ++ (lines.flatMap (· ++ crlf) ++ crlf ++ rest) := by
      simp [List.append_assoc]
    rw [hsplit, parseHeaders_line (hl.not_starts hne _) (hl.findCrlf _), take_line, drop_line, ih]
    refine Prod.ext rfl ?_
    simp only [shift_snd, List.flatMap_cons, List.length_append, List.length_cons, List.length_nil]
    omega

theorem readLines_text {hs : List (Bytes × Bytes)} (hok : ∀ h ∈ hs, HeaderOk h) (p : HttpParser) :
    p.readLines (hs.map headerText) = p.withHeaders hs := by
  induction hs generalizing p with
  | nil => rfl
  | cons h hs ih =>
    obtain ⟨hh, hrest⟩ := List.forall_mem_cons.mp hok
    rw [readLines, List.map_cons, List.foldl_cons, headerLine_text hh]
    exact ih hrest _

theorem isLine_headerText {h : Bytes × Bytes} (hok : HeaderOk h) :
    IsLine (headerText h) ∧ headerText h ≠ [] := by
  refine ⟨isLine_of_notMem ?_, by simp [headerText]⟩
  simp only [headerText, List.mem_append, List.mem_cons, not_or]
  exact ⟨hok.1.2.1, by decide, by decide, hok.2.1⟩

theorem parseHeaders_encode (rest : Bytes) {hs : List (Bytes × Bytes)}
    (hok : ∀ h ∈ hs, HeaderOk h) (p : HttpParser) :
    p.parseHeaders (encodeHeaders hs ++ crlf ++ rest) =
      ((p.withHeaders hs).endOfHeaders, (encodeHeaders hs ++ crlf).length) := by
  have hlines : encodeHeaders hs = (hs.map headerText).flatMap (· ++ crlf) := by
    rw [encodeHeaders, List.flatMap_map]
  have hall : ∀ l ∈ hs.map headerText, IsLine l ∧ l ≠ [] := by
    intro l hl
    obtain ⟨h, hh, rfl⟩ := List.mem_map.mp hl
    exact isLine_headerText (hok h hh)
  rw [hlines, parseHeaders_lines rest _ p hall, readLines_text hok]

end HttpParser

namespace Head

variable (h : Head)

def request : HttpRequest :=
  h.headers.foldl (fun r h => r.addHeader h.1 h.2)
    { method := .fromStr h.method, path := h.path, version := h.version }

/-- The parser behind the request line of `h`. -/
def lineParsed : HttpParser :=
  { HttpParser.new with
    request := { method := .fromStr h.method, path := h.path, version := h.version }
    state := .headers }

def parsed : HttpParser :=
  { HttpParser.new with request := h.request, state := .headers }.endOfHeaders

theorem foldl_addHeader (hs : List (Bytes × Bytes)) (r : HttpRequest) :
    hs.foldl (fun r h => r.addHeader h.1 h.2) r =
      { r with headers := hs.foldl (fun m h => m.insert h.1 h.2) r.headers } := by
  induction hs generalizing r with
  | nil => rfl
  | cons h hs ih => rw [List.foldl_cons, ih, List.foldl_cons]; rfl

@[simp] theorem request_method : h.request.method = .fromStr h.method := by
  rw [request, foldl_addHeader]

@[simp] theorem request_path : h.request.path = h.path := by rw [request, foldl_addHeader]

@[simp] theorem request_version : h.request.version = h.version := by rw [request, foldl_addHeader]

@[simp] theorem request_body : h.request.body = [] := by rw [request, foldl_addHeader]

theorem header_foldl (hs : List (Bytes × Bytes)) (r : HttpRequest) (k : Bytes) :
    (hs.foldl (fun r h => r.addHeader h.1 h.2) r).header k =
      (hs.reverse.lookup k).getD (r.header k) := by
  induction hs generalizing r with
  | nil => rfl
  | cons h hs ih =>
    obtain ⟨k', v⟩ := h
    rw [List.foldl_cons, ih, List.reverse_cons, List.lookup_append, HttpRequest.header_addHeader]
    cases hs.reverse.lookup k with
    | some w => rfl
    | none =>
      by_cases hk : k = k'
      · simp [hk]
      · simp [hk, List.lookup_cons, beq_eq_false_iff_ne.mpr hk]

@[simp] theorem request_header (k : Bytes) : h.request.header k = h.value k := header_foldl _ _ k

theorem value_of_not_listed {k : Bytes} (hk : ∀ v, (k, v) ∉ h.headers) : h.value k = [] := by
  have hnone : h.headers.reverse.lookup k = none := by
    rw [List.lookup_eq_none_iff]
    intro p hp
    rw [bne_iff_ne]
    rintro rfl
    exact hk p.2 (List.mem_reverse.mp hp)
  rw [value, hnone]; rfl

theorem parseRequestLine_encode (rest : Bytes) :
    HttpParser.new.parseRequestLine (h.encode ++ rest) =
      (h.lineParsed, (requestText h.method h.path h.version ++ crlf).length) := by
  have hline : IsLine (requestText h.method h.path h.version) := by
    apply isLine_of_notMem
    simp only [requestText, List.mem_append, List.mem_cons, not_or]
    exact ⟨⟨h.method_ok.2.1, by decide, h.path_ok.2.1⟩, by decide, h.version_ok.2.1⟩
  rw [encode, List.append_assoc]
  simp only [HttpParser.parseRequestLine, hline.findCrlf, take_line,
    HttpParser.requestOfLine_text h.method_ok.1 h.path_ok.1, List.length_append]
  rfl

theorem parseHeaders_lineParsed (rest : Bytes) :
    h.lineParsed.parseHeaders (encodeHeaders h.headers ++ crlf ++ rest) =
      (h.parsed, (encodeHeaders h.headers ++ crlf).length) :=
  HttpParser.parseHeaders_encode rest h.headers_ok h.lineParsed

theorem drop_requestLine (rest : Bytes) :
    (h.encode ++ rest).drop (requestText h.method h.path h.version ++ crlf).length =
      encodeHeaders h.headers ++ crlf ++ rest := by
  rw [encode, List.append_assoc, List.drop_left]

/-! ## Framing -/

variable {h}

theorem parsed_chunked (hc : h.Chunked) :
    h.parsed = { HttpParser.new with
      request := h.request, chunked := true, state := .chunkedBody } := by
  unfold Chunked at hc
  unfold parsed HttpParser.endOfHeaders
  simp only [request_header]
  rw [if_pos hc]

theorem parsed_length (hc : ¬ h.Chunked) {n : Nat} (hl : Numeral 10 h.lengthText n)
    (hn : n < sizeMod) :
    h.parsed = { HttpParser.new with
      request := h.request, contentLength := n, state := .body } := by
  unfold Chunked at hc
  unfold parsed HttpParser.endOfHeaders
  simp only [request_header]
  rw [if_neg hc, if_pos (show h.value (bytes "Content-Length") ≠ [] from hl.ne_nil),
    show strtoul (h.value (bytes "Content-Length") ++ [0]) 10 = some n from
      hl.strtoul (by decide) hn (by decide) []]
  rfl

theorem parsed_no_body (hc : ¬ h.Chunked) (hl : h.lengthText = []) :
    h.parsed = { HttpParser.new with request := h.request, state := .done } := by
  unfold Chunked at hc
  unfold parsed HttpParser.endOfHeaders
  simp only [request_header]
  unfold lengthText at hl
  rw [if_neg hc, if_neg (not_not_intro hl)]

@[simp] theorem parsed_request : h.parsed.request = h.request := HttpParser.endOfHeaders_request _

end Head

/-- **The request head round trip.** On one window that starts with the head, the
request line and the header section are consumed exactly, the parsed request is the
encoded one, and the headers decide the state that frames the body. -/
theorem head_round_trip (h : Head) (rest beyond : Bytes) :
    ∃ p q c d, HttpParser.new.dispatch (h.encode ++ rest) beyond = .ok (p, c) ∧
      p.state = .headers ∧
      p.dispatch ((h.encode ++ rest).drop c) beyond = .ok (q, d) ∧ c + d = h.encode.length ∧
      q.request.method = .fromStr h.method ∧ q.request.path = h.path ∧
      q.request.version = h.version ∧ (∀ k, q.request.header k = h.value k) ∧
      (∀ k, (∀ v, (k, v) ∉ h.headers) → q.request.header k = []) ∧
      (h.Chunked → q.state = .chunkedBody) ∧
      (∀ n, ¬ h.Chunked → Numeral 10 h.lengthText n → n < 2 ^ 64 →
        q.state = .body ∧ q.contentLength = n) ∧
      (¬ h.Chunked → (∀ v, (bytes "Content-Length", v) ∉ h.headers) → q.state = .done) := by
  refine ⟨h.lineParsed, h.parsed, _, (encodeHeaders h.headers ++ crlf).length,
    congrArg _ (h.parseRequestLine_encode rest), rfl, ?_, ?_, ?_⟩
  · rw [h.drop_requestLine]; exact congrArg _ (h.parseHeaders_lineParsed rest)
  · rw [Head.encode, ← List.length_append]
  · simp only [Head.parsed_request, Head.request_method, Head.request_path, Head.request_version,
      Head.request_header, true_and]
    refine ⟨fun _ => trivial, fun k hk => h.value_of_not_listed hk, fun hc => ?_,
      fun n hc hl hn => ?_, fun hc hl => ?_⟩
    · rw [Head.parsed_chunked hc]
    · rw [Head.parsed_length hc hl hn]; exact ⟨rfl, rfl⟩
    · rw [Head.parsed_no_body hc (h.value_of_not_listed hl)]

end Hound.Http
