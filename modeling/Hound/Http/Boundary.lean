import Hound.Http.Pipeline

/-!
# Behind a chunked request

`parse_chunked_body` is done with the line of the last chunk and leaves the CRLF that
ends the body. `chunked_leaves_crlf`: whatever follows a chunked request, the next one
starts with those two bytes, which the parser refuses (`parse_crlf`); so among
well-formed requests `on_message` takes its error branch exactly when one of them is
chunked (`serve_sequence`).
-/

namespace Hound.Http

open Lib Lib.Consumer HttpParser Connection

variable {H : Type}

theorem parse_crlf {J : Buffer → Prop} (hJ : Buffer.Contiguous J) {b : Buffer} (hb : J b)
    {r : Bytes} (hcon : b.content = crlf ++ r) :
    HttpParser.new.parse b = .ok ({ HttpParser.new with state := .error }, b, 0) := by
  have h0 : b.size ≠ 0 := fun h0 => by
    rw [(hJ.valid hb).size_eq_zero_iff, hcon] at h0
    cases h0
  have hstep := parse_eq (hJ.valid hb) HttpParser.new h0
  rw [hJ.window hb, hcon] at hstep
  rw [hstep]
  rfl

/-- **`parse` on the first of a sequence of messages.** It is done in front of the next
message, or of the CRLF that a chunked one leaves, or it waits in BODY when an empty
body is the last thing in the buffer. -/
theorem parse_sequence {J : Buffer → Prop} (hJ : Buffer.Contiguous J) {b : Buffer} (hb : J b)
    {m : Message} {ms : List Message} (hlt : m.encode.length < sizeMod)
    (hcon : b.content = encodeAll (m :: ms)) :
    ∃ q b' k, HttpParser.new.parse b = .ok (q, b', k) ∧ J b' ∧
      ((m.isChunked = false ∧ q.state = .done ∧ b'.content = encodeAll ms) ∨
        (m.isChunked = true ∧ q.state = .done ∧ b'.content = crlf ++ encodeAll ms) ∨
        (m.isChunked = false ∧ ms = [] ∧ q.state = .body ∧ b'.content = [])) := by
  rw [encodeAll, List.flatMap_cons] at hcon
  by_cases hprompt : m.isChunked = false ∧ (m.Prompt ∨ encodeAll ms ≠ [])
  · obtain ⟨b', hr, hb', hrest⟩ := Message.parse_encode hJ hb hprompt.1 hlt hprompt.2 hcon
    exact ⟨_, b', _, hr, hb', .inl ⟨hprompt.1, Message.parsed_state hprompt.1, hrest⟩⟩
  cases m with
  | bare h hc hl => exact absurd ⟨rfl, .inl trivial⟩ hprompt
  | chunked h cs hc hne =>
    obtain ⟨q, b', k, hr, hb', hrest, hs, -⟩ := parse_chunked hJ hb hc cs
      (crlf ++ encodeAll ms) (by rw [hcon, Message.encode]; simp [List.append_assoc, encodeAll])
    exact ⟨q, b', k, hr, hb', .inr (.inl ⟨rfl, hs, hrest⟩)⟩
  | fixed h body hc hl =>
    obtain ⟨hbody, hnil⟩ : body = [] ∧ encodeAll ms = [] := by
      simpa [Message.isChunked, Message.Prompt] using hprompt
    subst hbody
    have hms : ms = [] := by
      cases ms with
      | nil => rfl
      | cons m ms => exact absurd hnil (m.encode_ne_nil _)
    obtain ⟨b', hr, hb', hrest, hs⟩ := Message.parse_empty_body hJ hb hc hl (by
      rw [hcon, ← encodeAll, hnil, Message.encode, List.append_nil, List.append_nil])
    exact ⟨_, b', _, hr, hb', .inr (.inr ⟨rfl, hms, hs, hrest⟩)⟩

theorem Message.two_lt_length (m : Message) : 2 < m.encode.length := by
  have hhead (h : Head) : 2 < h.encode.length := by
    simp only [Head.encode, List.length_append, crlf, List.length_cons]; omega
  cases m with
  | bare h hc hl => exact hhead h
  | fixed h body hc hl => rw [encode, List.length_append]; exact Nat.lt_add_right _ (hhead h)
  | chunked h cs hc hne => rw [encode, List.length_append]; exact Nat.lt_add_right _ (hhead h)

/-- **The error branch among well-formed requests.** The loop, shown a sequence of
messages between two requests, ends with 400 exactly when one of them is chunked. -/
theorem serve_sequence (env : ServerEnv H) {J : Buffer → Prop} (hJ : Buffer.Contiguous J) :
    ∀ {ms : List Message} {fuel : Nat} {c : Connection H}, (∀ m ∈ ms, m.encode.length < sizeMod) →
      J c.readBuf → c.parser = .new → c.readBuf.content = encodeAll ms → c.readBuf.size < fuel →
      ((c.serveLoop env fuel).2 = .badRequest ↔ ∃ m ∈ ms, m.isChunked = true)
  | [], fuel, c, _, hb, _, hcon, _ => by
    rw [serveLoop_empty ((hJ.valid hb).size_eq_zero_iff.mpr hcon)]
    simp
  | m :: ms, 0, c, _, _, _, _, hf => absurd hf (Nat.not_lt_zero _)
  | m :: ms, fuel + 1, c, hms, hb, hp, hcon, hf => by
    obtain ⟨hlt, hms⟩ := List.forall_mem_cons.mp hms
    have hne : c.readBuf.content ≠ [] := hcon ▸ m.encode_ne_nil _
    have h0 : c.readBuf.size ≠ 0 := fun h0 => hne ((hJ.valid hb).size_eq_zero_iff.mp h0)
    obtain ⟨q, b', k, hr, hb', hcase⟩ := parse_sequence hJ hb hlt hcon
    have hsize : b'.size < c.readBuf.size := by
      have hlong := m.two_lt_length
      rw [(hJ.valid hb).size_eq, (hJ.valid hb').size_eq, hcon, encodeAll, List.flatMap_cons,
        List.length_append, ← encodeAll]
      rcases hcase with ⟨-, -, hrest⟩ | ⟨-, -, hrest⟩ | ⟨-, -, -, hrest⟩
      · rw [hrest]; omega
      · rw [hrest, List.length_append, show crlf.length = 2 from rfl]; omega
      · rw [hrest, List.length_nil]; omega
    have hk : k ≠ 0 := by
      have := (parse_spec (hJ.valid hb) sound_new hr).2.2.1
      omega
    rw [← hp] at hr
    rw [serveLoop_parsed h0 hr]
    rcases hcase with ⟨hm, hs, hrest⟩ | ⟨hm, hs, hrest⟩ | ⟨hm, rfl, hs, hrest⟩
    · rw [hs, if_neg State.noConfusion, if_pos rfl,
        serve_sequence env hJ hms (by rwa [complete_readBuf]) rfl (by rwa [complete_readBuf])
          (by rw [complete_readBuf]; omega)]
      simp [hm]
    · rw [hs, if_neg State.noConfusion, if_pos rfl]
      -- the next turn finds the CRLF
      obtain ⟨fuel, rfl⟩ := Nat.exists_eq_succ_of_ne_zero (show fuel ≠ 0 by omega)
      have h0' : b'.size ≠ 0 := fun h0' => by
        rw [(hJ.valid hb').size_eq_zero_iff, hrest] at h0'
        cases h0'
      have hr' : (c.complete env q b').parser.parse (c.complete env q b').readBuf =
          .ok ({ HttpParser.new with state := .error }, b', 0) := by
        rw [parser_complete, complete_readBuf]; exact parse_crlf hJ hb' hrest
      rw [serveLoop_parsed (by rwa [complete_readBuf]) hr', if_pos rfl]
      simp [hm]
    · rw [hs, if_neg State.noConfusion, if_neg State.noConfusion, if_neg hk,
        serveLoop_empty ((hJ.valid hb').size_eq_zero_iff.mpr hrest)]
      simp [hm]

/-- **What a chunked request leaves.** Done with a chunked request in one block, `parse`
has not consumed its last two bytes, and after `reset` it fails on them whatever comes
next. On a connection between two requests, a sequence of requests that fits the first
block ends in the error branch if and only if one of them is chunked. -/
theorem chunked_leaves_crlf [HeadMemory] {ops : List BufOp} {b : Buffer}
    (hrun : bufferMachine.run ops = some b)
    (hone : b.rd.bytes = b.content) (h : Head) (cs : List Chunk) (hc : h.Chunked) (hne : cs ≠ [])
    (r : Bytes) (hcon : b.content = (Message.chunked h cs hc hne).encode ++ r) :
    (∃ p b' k, HttpParser.new.parse b = .ok (p, b', k) ∧ p.state = .done ∧
      b'.content = crlf ++ r ∧ b'.content ≠ r ∧
      ∃ q, p.reset.parse b' = .ok (q, b', 0) ∧ q.state = .error) ∧
    (∀ {H : Type} {env : ServerEnv H} {stream : Bytes} {c : Connection H} {ms : List Message},
      Served env stream c .loopEnd → c.closed = false → c.parser = .new → c.readBuf.size = 0 →
      ms ≠ [] → stream.length + (encodeAll ms).length ≤ kBlockSize →
      ((c.onMessage env (.data (encodeAll ms))).2 = .badRequest ↔
        ∃ m ∈ ms, m.isChunked = true)) := by
  constructor
  · obtain ⟨p, b', k, hr, hb', hrest, hs, -⟩ := parse_chunked Buffer.contiguous_whole
      ⟨valid_of_run hrun, hone⟩ hc cs (crlf ++ r) (by
        rw [hcon, Message.encode]; simp only [List.append_assoc])
    refine ⟨p, b', k, hr, hs, hrest, fun he => ?_, _, parse_crlf Buffer.contiguous_whole hb' hrest,
      rfl⟩
    have hlen := congrArg List.length (hrest.symm.trans he)
    rw [List.length_append, show crlf.length = 2 from rfl] at hlen
    omega
  · intro H env stream c ms h hopen hp h0 hne hlen
    obtain ⟨m, ms, rfl⟩ := List.exists_cons_of_ne_nil hne
    have hne : encodeAll (m :: ms) ≠ [] := m.encode_ne_nil _
    have hpos := List.length_pos_iff.mpr hne
    obtain ⟨hone, -⟩ := h.oneBlock (by omega)
    have hroom : (encodeAll (m :: ms)).length ≤ c.readBuf.room := by
      rw [hone.room (by omega)]; omega
    have hcon : (c.received (encodeAll (m :: ms))).readBuf.content = encodeAll (m :: ms) := by
      rw [received, hone.valid.content_writeVia hroom, hone.valid.size_eq_zero_iff.mp h0]
      rfl
    rw [onMessage_data hone.valid hopen hne]
    refine serve_sequence env (Buffer.contiguous_oneBlock _) (fun m hm => ?_)
      (hone.writeVia hlen (by omega)) hp hcon (by unfold serveFuel; omega)
    exact encode_lt_of_mem hm (Nat.lt_of_le_of_lt (Nat.le_of_add_left_le hlen) (by decide))

/-- `POST / HTTP/1.1`, sent in chunks. -/
def chunkedHead : Head := postHead (bytes "Transfer-Encoding") (bytes "chunked") (by decide)

def hiChunks : List Chunk := [⟨bytes "2", bytes "hi", by decide, by decide, by decide⟩]

def chunkedPost : Message := .chunked chunkedHead hiChunks (by decide) (List.cons_ne_nil _ _)

/-- A chunked request with another request behind it, in a buffer and on a connection. -/
theorem chunked_leaves_crlf_pipelined :
    (∃ b p b' k, bufferMachine.run
        [.append (chunkedPost.encode ++ bytes "GET / HTTP/1.1\r\n\r\n")] = some b ∧
      HttpParser.new.parse b = .ok (p, b', k) ∧ p.state = .done ∧
      b'.content = crlf ++ bytes "GET / HTTP/1.1\r\n\r\n") ∧
    (({} : Connection Unit).onMessage idleEnv
      (.data (encodeAll [chunkedPost, getMessage (bytes "/") (by decide)]))).2 = .badRequest := by
  let bs := chunkedPost.encode ++ bytes "GET / HTTP/1.1\r\n\r\n"
  have hrun : bufferMachine.run [.append bs] = some (Buffer.new.append bs) := rfl
  obtain ⟨⟨p, b', k, hr, hs, hrest, -⟩, hserve⟩ := chunked_leaves_crlf hrun (by decide +kernel)
    chunkedHead hiChunks (by decide) (List.cons_ne_nil _ _) (bytes "GET / HTTP/1.1\r\n\r\n")
    (by decide +kernel)
  refine ⟨⟨_, p, b', k, hrun, hr, hs, hrest⟩, ?_⟩
  exact (hserve .accept rfl rfl rfl (List.cons_ne_nil _ _) (by decide +kernel)).mpr
    ⟨chunkedPost, List.mem_cons_self, rfl⟩

/-- Nothing follows the request, and its last two bytes stay unread; sent twice, it is
answered with 400. -/
theorem chunked_tail_unread :
    (∃ b p b' k, bufferMachine.run [.append (bytes ("POST / HTTP/1.1\r\nTransfer-Encoding: " ++
        "chunked\r\n\r\n2\r\nhi\r\n0\r\n\r\n"))] = some b ∧
      HttpParser.new.parse b = .ok (p, b', k) ∧ p.state = .done ∧ b'.content = bytes "\r\n") ∧
    (({} : Connection Unit).onMessage idleEnv
      (.data (encodeAll [chunkedPost, chunkedPost]))).2 = .badRequest := by
  refine ⟨?_, by decide +kernel⟩
  let bs := bytes "POST / HTTP/1.1\r\nTransfer-Encoding: chunked\r\n\r\n2\r\nhi\r\n0\r\n\r\n"
  have hrun : bufferMachine.run [.append bs] = some (Buffer.new.append bs) := rfl
  obtain ⟨p, b', k, hr, -, hrest, hs, -⟩ := parse_chunked Buffer.contiguous_whole
    ⟨valid_of_run hrun, by decide +kernel⟩ (h := chunkedHead) (by decide) hiChunks crlf
    (by decide +kernel)
  exact ⟨_, p, b', k, hrun, hr, hs, hrest⟩

end Hound.Http
