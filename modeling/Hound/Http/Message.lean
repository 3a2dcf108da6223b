import Hound.Http.ParseRun

/-!
# Whole messages

A `Message` is a well-formed request with its framing: no body, a body of the announced
length, or chunks. `Message.run_encode` and `parse_chunked` say how far `parse` gets
when it is shown a message and what follows it. `fixed_length_done_iff`: shown a
fixed-length request and nothing else, it is done exactly when the body is not empty.
-/

namespace Hound.Http

open Lib Lib.Consumer HttpParser

inductive Message where
  | bare (h : Head) (hc : ¬ h.Chunked) (hl : h.lengthText = [])
  | fixed (h : Head) (body : Bytes) (hc : ¬ h.Chunked) (hl : Numeral 10 h.lengthText body.length)
  | chunked (h : Head) (cs : List Chunk) (hc : h.Chunked) (hne : cs ≠ [])

namespace Message

def encode : Message → Bytes
  | bare h _ _ => h.encode
  | fixed h body _ _ => h.encode ++ body
  | chunked h cs _ _ => h.encode ++ (encodeChunks cs ++ crlf)

def request : Message → HttpRequest
  | bare h _ _ => h.request
  | fixed h body _ _ => { h.request with body := body }
  | chunked h cs _ _ => { h.request with body := chunksData cs }

/-- No body, or a body of at least one byte. -/
def Prompt : Message → Prop
  | bare _ _ _ => True
  | fixed _ body _ _ => body ≠ []
  | chunked _ _ _ _ => False

def isChunked : Message → Bool
  | chunked _ _ _ _ => true
  | _ => false

end Message

theorem Head.encode_ne_nil (h : Head) (rest : Bytes) : h.encode ++ rest ≠ [] := by
  simp [Head.encode, crlf]

theorem Head.run_encode (h : Head) (rest : Bytes) :
    plainMachine.run .new (h.encode ++ rest) =
      shift h.encode.length (plainMachine.run h.parsed rest) := by
  have hline := h.parseRequestLine_encode rest
  have h1 : plainMachine.step .new (h.encode ++ rest) =
      (h.lineParsed, (requestText h.method h.path h.version ++ crlf).length) := hline
  have h2 : plainMachine.step h.lineParsed (encodeHeaders h.headers ++ crlf ++ rest) =
      (h.parsed, (encodeHeaders h.headers ++ crlf).length) := h.parseHeaders_lineParsed rest
  have hne : encodeHeaders h.headers ++ crlf ++ rest ≠ [] := by simp
  rw [run_advance rfl (h.encode_ne_nil rest) (by rw [h1]; simp), h1, h.drop_requestLine,
    run_advance rfl hne (by rw [h2]; simp), h2, List.drop_left, shift_shift, Head.encode,
    ← List.length_append]

/-- The one-shot run over the body of a fixed-length request. An empty body takes a
byte of what follows to be noticed. -/
theorem run_body {h : Head} {body r : Bytes} (hc : ¬ h.Chunked)
    (hl : Numeral 10 h.lengthText body.length) (hn : body.length < sizeMod) (hne : body ++ r ≠ []) :
    plainMachine.run h.parsed (body ++ r) = ((h.parsed.grown body).completed, body.length) := by
  have hp := Head.parsed_length hc hl hn
  have hs : h.parsed.state = .body := by rw [hp]
  have hI : h.parsed.Inv := by
    rw [hp]
    exact ⟨fun hb => by simp at hb, Nat.zero_le _, hn⟩
  have hread : h.parsed.bodyRead = 0 := by rw [hp]; rfl
  have hlen : h.parsed.contentLength = body.length := by rw [hp]
  have hgo : plainMachine.halted h.parsed = false := not_halted.mpr (plain_of_state hs (by simp))
  have hstep : plainMachine.step h.parsed (body ++ r) =
      ((h.parsed.grown body).completed, body.length) := by
    have hfull := hI.parseBody_full (w := body ++ r) (by
      rw [hread, hlen, List.length_append]; omega)
    rw [hread, hlen, Nat.sub_zero, List.take_left] at hfull
    unfold plainMachine plainStep
    simp only [hs]
    exact hfull
  by_cases h0 : body.length = 0
  · rw [run_idle hgo hne (by rw [hstep]; exact h0), hstep]
  · rw [run_advance hgo hne (by rw [hstep]; exact h0), hstep, run_halted rfl]
    rfl

namespace Message

def parsed : Message → HttpParser
  | bare h _ _ => h.parsed
  | fixed h body _ _ => (h.parsed.grown body).completed
  | chunked h _ _ _ => h.parsed

variable {m : Message}

theorem Prompt.not_chunked (hm : m.Prompt) : m.isChunked = false := by
  cases m with
  | chunked => exact hm.elim
  | _ => rfl

theorem parsed_state (hm : m.isChunked = false) : m.parsed.state = .done := by
  cases m with
  | bare h hc hl => exact congrArg HttpParser.state (Head.parsed_no_body hc hl)
  | fixed h body hc hl => rfl
  | chunked => cases hm

theorem parsed_request (hm : m.isChunked = false) (hn : m.encode.length < sizeMod) :
    m.parsed.request = m.request := by
  cases m with
  | bare h hc hl => exact Head.parsed_request
  | fixed h body hc hl =>
    have hlt : body.length < sizeMod := by
      rw [encode, List.length_append] at hn; omega
    simp only [parsed, request, completed, grown, Head.parsed_request]
    rw [Head.parsed_length hc hl hlt]
    rfl
  | chunked => cases hm

/-- **The one-shot run over a message** ends with its last byte, whatever follows; an
empty body must be followed by something. -/
theorem run_encode (hm : m.isChunked = false) (hn : m.encode.length < sizeMod) {r : Bytes}
    (hr : m.Prompt ∨ r ≠ []) :
    plainMachine.run .new (m.encode ++ r) = (m.parsed, m.encode.length) := by
  cases m with
  | bare h hc hl =>
    have hdone : plainMachine.halted h.parsed = true := by
      rw [Head.parsed_no_body hc hl]; rfl
    rw [encode, h.run_encode, run_halted hdone]
    rfl
  | fixed h body hc hl =>
    have hlt : body.length < sizeMod := by
      rw [encode, List.length_append] at hn; omega
    have hne : body ++ r ≠ [] := by
      rw [Ne, List.append_eq_nil_iff, not_and_or]
      exact hr
    rw [encode, List.append_assoc, h.run_encode, run_body hc hl hlt hne, List.length_append]
    rfl
  | chunked => cases hm

/-- `parse` on a message without chunks, shown with what follows it. -/
theorem parse_encode {J : Buffer → Prop} (hJ : Buffer.Contiguous J) {b : Buffer} (hb : J b)
    (hm : m.isChunked = false) (hn : m.encode.length < sizeMod) {r : Bytes} (hr : m.Prompt ∨ r ≠ [])
    (hcon : b.content = m.encode ++ r) :
    ∃ b', HttpParser.new.parse b = .ok (m.parsed, b', m.encode.length) ∧ J b' ∧ b'.content = r := by
  obtain ⟨b', hb', hcon', hparse⟩ := parse_run hJ hb inv_new
  rw [hcon, run_encode hm hn hr] at hcon' hparse
  rw [List.drop_left] at hcon'
  have hstop : Stuck m.parsed b'.window := dispatch_stopped (.inl (parsed_state hm)) _
  rw [hstop.parse (hJ.valid hb')] at hparse
  exact ⟨b', hparse, hb', hcon'⟩

/-- `parse` on a head that announces an empty body, with nothing behind it: the loop
ends before `parse_body` is called. -/
theorem parse_empty_body {J : Buffer → Prop} (hJ : Buffer.Contiguous J) {b : Buffer} (hb : J b)
    {h : Head} (hc : ¬ h.Chunked) (hl : Numeral 10 h.lengthText 0) (hcon : b.content = h.encode) :
    ∃ b', HttpParser.new.parse b = .ok (h.parsed, b', h.encode.length) ∧ J b' ∧
      b'.content = [] ∧ h.parsed.state = .body := by
  obtain ⟨b', hb', hcon', hparse⟩ := parse_run hJ hb inv_new
  have hrun := h.run_encode []
  rw [run_nil, List.append_nil] at hrun
  rw [hcon, hrun, shift_snd, Nat.add_zero] at hcon' hparse
  rw [List.drop_length] at hcon'
  rw [shift_fst, parse_empty _ ((hJ.valid hb').size_eq_zero_iff.mpr hcon')] at hparse
  exact ⟨b', hparse, hb', hcon', by rw [Head.parsed_length hc hl (by decide)]⟩

end Message

/-! ## Chunks -/

theorem sizeLine_whole {size : Bytes} {n : Nat} (hs : Numeral 16 size n) (hn : n < sizeMod)
    (rest : Bytes) : findCrlf (sizeLine size rest) = some size.length ∧
      (∀ beyond, strtoul (sizeLine size rest ++ beyond) 16 = some n) ∧
      (sizeLine size rest).drop (size.length + 2) = rest := by
  rcases sizeLine_window hs hn (List.append_nil (sizeLine size rest)) with ⟨-, hx⟩ | ⟨hf, hst, hd⟩
  · exact absurd rfl hx
  · exact ⟨hf, hst, by rwa [List.append_nil] at hd⟩

theorem parseChunkedBody_encode (tail beyond : Bytes) :
    ∀ (cs : List Chunk) {p : HttpParser}, p.readingChunkSize = true →
      ∃ q, p.parseChunkedBody (encodeChunks cs ++ tail) beyond =
          .ok (q, (encodeChunks cs).length) ∧
        q.state = .done ∧ q.request = { p.request with body := p.tempBody ++ chunksData cs }
  | [], p, hr => by
    obtain ⟨hf, hst, -⟩ := sizeLine_whole numeral_zero (Nat.two_pow_pos 64) tail
    have hline : encodeChunks [] ++ tail = sizeLine (bytes "0") tail := by
      simp [encodeChunks, sizeLine]
    rw [hline]
    refine ⟨_, parseChunkedBody_last hr hf (hst beyond), rfl, ?_⟩
    simp [completed, chunksData]
  | c :: cs, p, hr => by
    obtain ⟨hf, hst, hdrop⟩ := sizeLine_whole c.size_ok (Nat.lt_of_lt_of_le c.data_lt (by decide))
      (chunkRest c.data (encodeChunks cs ++ tail))
    have hline : encodeChunks (c :: cs) ++ tail =
        sizeLine c.size (chunkRest c.data (encodeChunks cs ++ tail)) := by
      simp [encodeChunks, sizeLine, chunkRest, List.append_assoc]
    have hne : c.data.length ≠ 0 := by simpa [List.length_eq_zero_iff] using c.data_ne
    obtain ⟨q, hq, hs, hreq⟩ := parseChunkedBody_encode tail beyond cs
      (p := { p with
        chunkSize := c.data.length
        readingChunkSize := true
        tempBody := p.tempBody ++ c.data }) rfl
    refine ⟨q, ?_, hs, ?_⟩
    · have htake : (chunkRest c.data (encodeChunks cs ++ tail)).take c.data.length = c.data := by
        rw [chunkRest, List.append_assoc, List.take_left]
      have hrest : (chunkRest c.data (encodeChunks cs ++ tail)).drop (c.data.length + 2) =
          encodeChunks cs ++ tail := drop_line _ _
      rw [hline, parseChunkedBody_size hr hf (hst beyond) hne, hdrop,
        parseChunkedBody_full rfl c.data_lt (by simp [chunkRest])]
      simp only [htake, hrest]
      rw [hq]
      simp only [Except.map, shift, encodeChunks, sizeLine, chunkRest, List.length_append,
        List.length_cons, List.length_nil]
    · rw [hreq]
      simp [chunksData, List.append_assoc]

/-- **`parse` on a chunked request.** It is done after the line of the last chunk, in
front of whatever follows that. -/
theorem parse_chunked {J : Buffer → Prop} (hJ : Buffer.Contiguous J) {b : Buffer} (hb : J b)
    {h : Head} (hc : h.Chunked) (cs : List Chunk) (tail : Bytes)
    (hcon : b.content = h.encode ++ (encodeChunks cs ++ tail)) :
    ∃ q b' k, HttpParser.new.parse b = .ok (q, b', k) ∧ J b' ∧ b'.content = tail ∧
      q.state = .done ∧ q.request = { h.request with body := chunksData cs } := by
  have hp := Head.parsed_chunked hc
  have hst : h.parsed.state = .chunkedBody := by rw [hp]
  have hr : h.parsed.readingChunkSize = true := by rw [hp]; rfl
  have hhalt : plainMachine.halted h.parsed = true := by rw [hp]; rfl
  obtain ⟨b1, hb1, hcon1, hparse⟩ := parse_run hJ hb inv_new
  rw [hcon, h.run_encode, run_halted hhalt] at hcon1 hparse
  rw [shift_snd, Nat.add_zero, List.drop_left] at hcon1
  obtain ⟨q, hq, hs, hreq⟩ := parseChunkedBody_encode tail b1.beyond cs hr
  have h0 : b1.size ≠ 0 := fun h0 => by
    have hnil := (hJ.valid hb1).size_eq_zero_iff.mp h0
    rw [hcon1] at hnil
    exact encodeChunks_ne_nil cs (List.append_eq_nil_iff.mp hnil).1
  have hlen : (encodeChunks cs).length ≠ 0 := by
    simpa [List.length_eq_zero_iff] using encodeChunks_ne_nil cs
  have hb2 := hJ.retrieve (encodeChunks cs).length hb1
  have hgo := parse_eq (hJ.valid hb1) h.parsed h0
  rw [dispatch_chunked hst, hJ.window hb1, hcon1, hq] at hgo
  simp only [if_neg hlen] at hgo
  have hstop : Stuck q (b1.retrieve (encodeChunks cs).length).window :=
    dispatch_stopped (.inl hs) _
  rw [hstop.parse (hJ.valid hb2)] at hgo
  refine ⟨q, _, _, by rw [hparse, shift_fst, hgo]; rfl, hb2, ?_, hs, ?_⟩
  · rw [(hJ.valid hb1).content_retrieve, hcon1, List.drop_left]
  · have hbody : h.parsed.tempBody = [] := by rw [hp]; rfl
    rw [hreq, hbody, Head.parsed_request, List.nil_append]

/-! ## The last byte of a fixed-length request -/

/-- **When a fixed-length request completes.** Given the request in one block and
nothing else, `parse` ends DONE with the body and an empty buffer if and only if the
body has a byte. -/
theorem fixed_length_done_iff [HeadMemory] {ops : List BufOp} {b : Buffer}
    (hb : bufferMachine.run ops = some b) (hone : b.rd.bytes = b.content) (h : Head)
    (hc : ¬ h.Chunked) (body : Bytes) (hl : Numeral 10 h.lengthText body.length)
    (hcon : b.content = h.encode ++ body) :
    (∃ p b' k, HttpParser.new.parse b = .ok (p, b', k) ∧ p.state = .done ∧
      p.request.body = body ∧ b'.size = 0) ↔ 1 ≤ body.length := by
  have hv := valid_of_run hb
  have hwhole : b.Whole := ⟨hv, hone⟩
  cases body with
  | nil =>
    rw [List.append_nil] at hcon
    obtain ⟨b', hparse, -, -, hst⟩ :=
      Message.parse_empty_body Buffer.contiguous_whole hwhole hc hl hcon
    refine iff_of_false ?_ (by simp)
    rintro ⟨p, b1, k, hr, hs, -⟩
    rw [hparse] at hr
    cases hr
    rw [hst] at hs
    cases hs
  | cons c body =>
    let m : Message := .fixed h (c :: body) hc hl
    have hm : m.Prompt := List.cons_ne_nil c body
    -- the message lies in one block, so its length is far below 2^64
    have hlt : m.encode.length < sizeMod := by
      have hlen : m.encode.length = b.rd.readable := by
        rw [← hv.rd_bytes_length, hone, hcon]; rfl
      have := hv.ok_rd.write_le
      unfold kBlockSize at this
      unfold Block.readable at hlen
      unfold sizeMod
      omega
    obtain ⟨b', hparse, hb', hnil⟩ := Message.parse_encode Buffer.contiguous_whole hwhole
      hm.not_chunked hlt (.inl hm) (r := []) (by rw [List.append_nil]; exact hcon)
    refine iff_of_true ⟨_, _, _, hparse, Message.parsed_state hm.not_chunked, ?_,
      hb'.valid.size_eq_zero_iff.mpr hnil⟩ (by simp)
    exact congrArg HttpRequest.body (Message.parsed_request hm.not_chunked hlt)

theorem token_version : Token (bytes "HTTP/1.1") := by decide

def postHead (name value : Bytes) (h : HeaderOk (name, value)) : Head where
  method := bytes "POST"
  path := bytes "/"
  version := bytes "HTTP/1.1"
  headers := [(name, value)]
  method_ok := by decide
  path_ok := by decide
  version_ok := token_version
  headers_ok := by simpa using h

/-- A body of two bytes. -/
theorem fixed_length_done_two_bytes :
    ∃ b, bufferMachine.run [.append (bytes "POST / HTTP/1.1\r\nContent-Length: 2\r\n\r\nhi")] =
      some b ∧ ∃ p b' k, HttpParser.new.parse b = .ok (p, b', k) ∧ p.state = .done ∧
        p.request.body = bytes "hi" ∧ b'.size = 0 := by
  let b := Buffer.new.append (bytes "POST / HTTP/1.1\r\nContent-Length: 2\r\n\r\nhi")
  have hrun : bufferMachine.run
    [.append (bytes "POST / HTTP/1.1\r\nContent-Length: 2\r\n\r\nhi")] = some b := rfl
  have hone : b.rd.bytes = b.content := by decide +kernel
  let h := postHead (bytes "Content-Length") (bytes "2") (by decide)
  exact ⟨b, hrun, (fixed_length_done_iff hrun hone h (by decide) (bytes "hi") (by decide)
    (by decide +kernel)).mpr (by decide)⟩

/-- An announced body of no bytes: everything is consumed, and the parser stays in BODY. -/
theorem fixed_length_waits_on_empty :
    ∃ b p b' k, bufferMachine.run
        [.append (bytes "POST / HTTP/1.1\r\nContent-Length: 0\r\n\r\n")] = some b ∧
      HttpParser.new.parse b = .ok (p, b', k) ∧ b'.size = 0 ∧ p.state = .body := by
  let b := Buffer.new.append (bytes "POST / HTTP/1.1\r\nContent-Length: 0\r\n\r\n")
  have hrun : bufferMachine.run
    [.append (bytes "POST / HTTP/1.1\r\nContent-Length: 0\r\n\r\n")] = some b := rfl
  have hb : b.Whole := ⟨valid_of_run hrun, by decide +kernel⟩
  obtain ⟨b', hparse, hb', hnil, hst⟩ := Message.parse_empty_body Buffer.contiguous_whole hb
    (h := postHead (bytes "Content-Length") (bytes "0") (by decide)) (by decide) (by decide)
    (by decide +kernel)
  exact ⟨b, _, b', _, hrun, hparse, hb'.valid.size_eq_zero_iff.mpr hnil, hst⟩

end Hound.Http
