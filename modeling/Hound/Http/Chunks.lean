import Hound.Http.Head

/-!
# Chunked bodies

The branches of `parse_chunked_body`, one lemma each, then the chunked encoding
(`Chunk`, `encodeChunks`) and its decoder under any segmentation. `Mid total p rest`
is the resumption invariant: `p` has read some of an encoding of `total`, and `rest`
is what is still to be consumed. `Mid.call` carries it through one call.
-/

namespace Hound.Http

open Lib Lib.Consumer

namespace HttpParser

variable {p : HttpParser} {w : Bytes}

/-! ## The branches of `parse_chunked_body` -/

theorem parseChunkedBody_nil (p : HttpParser) (beyond : Bytes) :
    p.parseChunkedBody [] beyond = .ok (p, 0) := by
  rw [parseChunkedBody, if_pos rfl]

theorem parseChunkedBody_wait (hr : p.readingChunkSize = true) (hf : findCrlf w = none)
    (beyond : Bytes) : p.parseChunkedBody w beyond = .ok (p, 0) := by
  by_cases hw : w = []
  · rw [hw]; exact parseChunkedBody_nil p beyond
  · rw [parseChunkedBody, if_neg hw, if_pos hr, hf]

theorem parseChunkedBody_off (hr : p.readingChunkSize = true) {i : Nat}
    (hf : findCrlf w = some i) {beyond : Bytes} (hs : strtoul (w ++ beyond) 16 = none) :
    p.parseChunkedBody w beyond = .error .outOfBounds := by
  have hw : w ≠ [] := by rintro rfl; cases hf
  rw [parseChunkedBody, if_neg hw, if_pos hr, hf]
  simp only [hs]

theorem parseChunkedBody_last (hr : p.readingChunkSize = true) {i : Nat}
    (hf : findCrlf w = some i) {beyond : Bytes} (hs : strtoul (w ++ beyond) 16 = some 0) :
    p.parseChunkedBody w beyond = .ok ({ p.completed with chunkSize := 0 }, i + 2) := by
  have hw : w ≠ [] := by rintro rfl; cases hf
  rw [parseChunkedBody, if_neg hw, if_pos hr, hf]
  simp only [hs, if_true]
  rfl

theorem parseChunkedBody_size (hr : p.readingChunkSize = true) {i n : Nat}
    (hf : findCrlf w = some i) {beyond : Bytes} (hs : strtoul (w ++ beyond) 16 = some n)
    (hn : n ≠ 0) :
    p.parseChunkedBody w beyond =
      ({ p with chunkSize := n, readingChunkSize := false }.parseChunkedBody
        (w.drop (i + 2)) beyond).map (shift (i + 2)) := by
  have hw : w ≠ [] := by rintro rfl; cases hf
  rw [parseChunkedBody, if_neg hw, if_pos hr, hf]
  simp only [hs, if_neg hn]

theorem parseChunkedBody_overflow (hr : p.readingChunkSize = false) (hw : w ≠ [])
    (hc : p.chunkSize < sizeMod) (hbig : appendLimit ≤ p.chunkSize) (beyond : Bytes) :
    p.parseChunkedBody w beyond = .error .lengthError := by
  have hpos : 0 < w.length := List.length_pos_iff.mpr hw
  have hadd : sizeAdd p.chunkSize 2 ≤ 1 := by
    unfold sizeAdd sizeMod appendLimit at *; omega
  have happ : appendFrom p.tempBody (w ++ beyond) p.chunkSize = .error .lengthError := by
    rw [appendFrom, if_pos hbig]
  rw [parseChunkedBody, if_neg hw, if_neg (by simp [hr]), if_neg (by omega)]
  split
  · next h => rw [happ] at h; cases h; rfl
  · next h => rw [happ] at h; cases h

/-- The parser after `k` bytes of chunk data. -/
def partly (p : HttpParser) (w : Bytes) (k : Nat) : HttpParser :=
  { p with tempBody := p.tempBody ++ w.take k, chunkSize := p.chunkSize - k }

theorem parseChunkedBody_part (hr : p.readingChunkSize = false) (hc : p.chunkSize < appendLimit)
    (hlt : w.length < p.chunkSize + 2) (beyond : Bytes) :
    p.parseChunkedBody w beyond =
      .ok (p.partly w (min w.length p.chunkSize), min w.length p.chunkSize) := by
  by_cases hw : w = []
  · subst hw
    rw [parseChunkedBody_nil]
    simp [partly]
  · have hadd : sizeAdd p.chunkSize 2 = p.chunkSize + 2 :=
      sizeAdd_of_lt (by unfold appendLimit at hc; unfold sizeMod; omega)
    rw [parseChunkedBody, if_neg hw, if_neg (by simp [hr]), hadd, if_pos hlt]
    simp only
    rw [appendFrom_of_le (by omega) (by rw [List.length_append]; omega),
      List.take_append_of_le_length (by omega)]
    rfl

theorem parseChunkedBody_full (hr : p.readingChunkSize = false) (hc : p.chunkSize < appendLimit)
    (hge : p.chunkSize + 2 ≤ w.length) (beyond : Bytes) :
    p.parseChunkedBody w beyond =
      ({ p with tempBody := p.tempBody ++ w.take p.chunkSize, readingChunkSize := true
        }.parseChunkedBody (w.drop (p.chunkSize + 2)) beyond).map (shift (p.chunkSize + 2)) := by
  have hw : w ≠ [] := by rintro rfl; simp at hge
  have hadd : sizeAdd p.chunkSize 2 = p.chunkSize + 2 :=
    sizeAdd_of_lt (by unfold appendLimit at hc; unfold sizeMod; omega)
  have happ : appendFrom p.tempBody (w ++ beyond) p.chunkSize =
      .ok (p.tempBody ++ w.take p.chunkSize) := by
    rw [appendFrom_of_le hc (by rw [List.length_append]; omega),
      List.take_append_of_le_length (by omega)]
  rw [parseChunkedBody, if_neg hw, if_neg (by simp [hr]), hadd, if_neg (by omega)]
  split
  · next h => rw [happ] at h; cases h
  · next h => rw [happ] at h; cases h; rfl

/-- **Induction along the loop of `parse_chunked_body`.** One case for each way out of
it and one for each way around. -/
theorem chunk_induction {beyond : Bytes}
    {motive : HttpParser → Bytes → Except Fault (HttpParser × Nat) → Prop}
    (wait : ∀ {p : HttpParser} {w : Bytes},
      w = [] ∨ (p.readingChunkSize = true ∧ findCrlf w = none) → motive p w (.ok (p, 0)))
    (off : ∀ {p : HttpParser} {w : Bytes} {i : Nat}, p.readingChunkSize = true →
      findCrlf w = some i → strtoul (w ++ beyond) 16 = none → motive p w (.error .outOfBounds))
    (last : ∀ {p : HttpParser} {w : Bytes} {i : Nat}, p.readingChunkSize = true →
      findCrlf w = some i → strtoul (w ++ beyond) 16 = some 0 →
      motive p w (.ok ({ p.completed with chunkSize := 0 }, i + 2)))
    (size : ∀ {p : HttpParser} {w : Bytes} {i n : Nat} {r : Except Fault (HttpParser × Nat)},
      p.readingChunkSize = true → findCrlf w = some i → strtoul (w ++ beyond) 16 = some n → n ≠ 0 →
      motive { p with chunkSize := n, readingChunkSize := false } (w.drop (i + 2)) r →
      motive p w (r.map (shift (i + 2))))
    (overflow : ∀ {p : HttpParser} {w : Bytes}, p.readingChunkSize = false → w ≠ [] →
      appendLimit ≤ p.chunkSize → motive p w (.error .lengthError))
    (part : ∀ {p : HttpParser} {w : Bytes}, p.readingChunkSize = false → w ≠ [] →
      p.chunkSize < appendLimit → w.length < p.chunkSize + 2 →
      motive p w (.ok (p.partly w (min w.length p.chunkSize), min w.length p.chunkSize)))
    (full : ∀ {p : HttpParser} {w : Bytes} {r : Except Fault (HttpParser × Nat)},
      p.readingChunkSize = false → p.chunkSize < appendLimit → p.chunkSize + 2 ≤ w.length →
      motive { p with tempBody := p.tempBody ++ w.take p.chunkSize, readingChunkSize := true }
        (w.drop (p.chunkSize + 2)) r →
      motive p w (r.map (shift (p.chunkSize + 2)))) :
    ∀ {w : Bytes} {p : HttpParser}, p.chunkSize < sizeMod →
      motive p w (p.parseChunkedBody w beyond) := by
  intro w
  induction hlen : w.length using Nat.strong_induction_on generalizing w with
  | _ len ih =>
  subst hlen
  intro p hc
  by_cases hw : w = []
  · subst hw; rw [parseChunkedBody_nil]; exact wait (.inl rfl)
  cases hr : p.readingChunkSize with
  | true =>
    cases hf : findCrlf w with
    | none => rw [parseChunkedBody_wait hr hf]; exact wait (.inr ⟨hr, hf⟩)
    | some i =>
      have hle := findCrlf_le hf
      cases hs : strtoul (w ++ beyond) 16 with
      | none => rw [parseChunkedBody_off hr hf hs]; exact off hr hf hs
      | some n =>
        by_cases hn : n = 0
        · subst hn; rw [parseChunkedBody_last hr hf hs]; exact last hr hf hs
        · rw [parseChunkedBody_size hr hf hs hn]
          exact size hr hf hs hn
            (ih _ (by rw [List.length_drop]; omega) rfl (strtoul_lt hs))
  | false =>
    rcases Nat.lt_or_ge p.chunkSize appendLimit with hlim | hbig
    · rcases Nat.lt_or_ge w.length (p.chunkSize + 2) with hlt | hge
      · rw [parseChunkedBody_part hr hlim hlt]; exact part hr hw hlim hlt
      · rw [parseChunkedBody_full hr hlim hge]
        exact full hr hlim hge (ih _ (by rw [List.length_drop]; omega) rfl hc)
    · rw [parseChunkedBody_overflow hr hw hc hbig]; exact overflow hr hw hbig

end HttpParser

/-! ## The encoding -/

/-- A chunk: its data and the text of its size. -/
structure Chunk where
  size : Bytes
  data : Bytes
  size_ok : Numeral 16 size data.length
  data_ne : data ≠ []
  data_lt : data.length < 2 ^ 64 - 2

def sizeLine (size rest : Bytes) : Bytes := size ++ crlf ++ rest

def chunkRest (data rest : Bytes) : Bytes := data ++ crlf ++ rest

def encodeChunks : List Chunk → Bytes
  | [] => sizeLine (bytes "0") []
  | c :: cs => sizeLine c.size (chunkRest c.data (encodeChunks cs))

def chunksData (cs : List Chunk) : Bytes := cs.flatMap Chunk.data

theorem numeral_zero : Numeral 16 (bytes "0") 0 := by decide

theorem encodeChunks_ne_nil (cs : List Chunk) : encodeChunks cs ≠ [] := by
  cases cs <;> simp [encodeChunks, sizeLine]

theorem sizeLine_window {size rest w x : Bytes} {n : Nat} (hs : Numeral 16 size n)
    (hn : n < sizeMod) (hwx : w ++ x = sizeLine size rest) :
    (findCrlf w = none ∧ x ≠ []) ∨
    (findCrlf w = some size.length ∧ (∀ beyond, strtoul (w ++ beyond) 16 = some n) ∧
      w.drop (size.length + 2) ++ x = rest) := by
  have hfull : findCrlf (w ++ x) = some size.length := by
    rw [hwx]
    exact (isLine_of_notMem (hs.notMem (by decide) (by decide))).findCrlf rest
  cases hf : findCrlf w with
  | none =>
    refine .inl ⟨rfl, ?_⟩
    rintro rfl
    rw [List.append_nil, hf] at hfull
    cases hfull
  | some i =>
    have hi : i = size.length := by
      rw [findCrlf_append hf x] at hfull; exact Option.some.inj hfull
    subst hi
    have hle := findCrlf_le hf
    refine .inr ⟨rfl, fun beyond => ?_, ?_⟩
    · have hpre : size ++ [CR] <+: w := by
        refine List.prefix_of_prefix_length_le ?_ (List.prefix_append w x)
          (by rw [List.length_append, List.length_singleton]; omega)
        rw [hwx]
        exact ⟨LF :: rest, by simp [sizeLine]⟩
      obtain ⟨t, rfl⟩ := hpre
      rw [List.append_assoc, List.append_assoc]
      exact hs.strtoul (by decide) hn (by decide) _
    · rw [← List.drop_append_of_le_length hle, hwx]
      exact drop_line size rest

/-! ## Resuming -/

/-- `p` has read some of a chunked encoding of `total`; `rest` is the rest of it. -/
inductive Mid (total : Bytes) (p : HttpParser) : Bytes → Prop where
  | size (cs : List Chunk) (hs : p.state = .chunkedBody) (hr : p.readingChunkSize = true)
      (hb : p.tempBody ++ chunksData cs = total) : Mid total p (encodeChunks cs)
  | data (d : Bytes) (cs : List Chunk) (hs : p.state = .chunkedBody)
      (hr : p.readingChunkSize = false) (hd : p.chunkSize = d.length)
      (hl : d.length < appendLimit) (hb : p.tempBody ++ d ++ chunksData cs = total) :
      Mid total p (chunkRest d (encodeChunks cs))

structure Finished (total : Bytes) (p : HttpParser) : Prop where
  state : p.state = .done
  body : p.request.body = total

variable {total : Bytes} {p : HttpParser}

theorem Mid.state {rest : Bytes} (h : Mid total p rest) : p.state = .chunkedBody := by
  cases h <;> assumption

theorem Mid.ne_nil {rest : Bytes} (h : Mid total p rest) : rest ≠ [] := by
  cases h with
  | size cs => exact encodeChunks_ne_nil cs
  | data d cs => simp [chunkRest]

/-- What one call may return on the window `w`, when `x` is still to come. -/
def CallOk (total : Bytes) (w x : Bytes) (r : Except Fault (HttpParser × Nat)) : Prop :=
  ∃ q c, r = .ok (q, c) ∧ c ≤ w.length ∧
    (x = [] → c = w.length ∧ Finished total q) ∧
    (x ≠ [] → Mid total q ((w ++ x).drop c))

theorem CallOk.shift {w x : Bytes} {n : Nat} {r : Except Fault (HttpParser × Nat)}
    (hn : n ≤ w.length) (h : CallOk total (w.drop n) x r) :
    CallOk total w x (r.map (Consumer.shift n)) := by
  obtain ⟨q, c, rfl, hle, hnil, hne⟩ := h
  rw [List.length_drop] at hle hnil
  refine ⟨q, n + c, rfl, by omega, fun hx => ⟨?_, (hnil hx).2⟩, fun hx => ?_⟩
  · have := (hnil hx).1
    omega
  · rw [← List.drop_drop, List.drop_append_of_le_length hn]
    exact hne hx

/-- **One call.** It succeeds whatever lies beyond its window, consumes no more than
the window, and ends the body exactly when nothing is to come. -/
theorem Mid.call : ∀ {w x : Bytes} {p : HttpParser}, Mid total p (w ++ x) → ∀ beyond,
    CallOk total w x (p.parseChunkedBody w beyond) := by
  intro w
  -- every turn of the loop consumes a size line or a chunk
  induction hlen : w.length using Nat.strong_induction_on generalizing w with
  | _ len ih =>
  subst hlen
  intro x p h beyond
  generalize hwx : w ++ x = rest at h
  cases h with
  | size cs hs hr hb =>
    cases cs with
    | nil =>
      rcases sizeLine_window numeral_zero (Nat.two_pow_pos 64) hwx with
        ⟨hf, hx⟩ | ⟨hf, hst, hrest⟩
      · exact ⟨p, 0, HttpParser.parseChunkedBody_wait hr hf beyond, Nat.zero_le _,
          fun h0 => absurd h0 hx, fun _ => hwx ▸ .size [] hs hr hb⟩
      · obtain ⟨hw, hx⟩ := List.append_eq_nil_iff.mp hrest
        have hle := findCrlf_le hf
        refine ⟨_, _, HttpParser.parseChunkedBody_last hr hf (hst beyond), hle,
          fun _ => ⟨?_, rfl, ?_⟩, fun h0 => absurd hx h0⟩
        · exact Nat.le_antisymm hle (List.drop_eq_nil_iff.mp hw)
        · simpa [chunksData, HttpParser.completed] using hb
    | cons c cs =>
      rcases sizeLine_window c.size_ok (Nat.lt_of_lt_of_le c.data_lt (by decide)) hwx with
        ⟨hf, hx⟩ | ⟨hf, hst, hrest⟩
      · exact ⟨p, 0, HttpParser.parseChunkedBody_wait hr hf beyond, Nat.zero_le _,
          fun h0 => absurd h0 hx, fun _ => hwx ▸ .size (c :: cs) hs hr hb⟩
      · have hle := findCrlf_le hf
        rw [HttpParser.parseChunkedBody_size hr hf (hst beyond)
          (by simpa [List.length_eq_zero_iff] using c.data_ne)]
        refine CallOk.shift hle (ih _ ?_ rfl ?_ beyond)
        · rw [List.length_drop]; omega
        · rw [hrest]
          exact .data c.data cs hs rfl rfl c.data_lt (by
            rw [List.append_assoc]; exact hb)
  | data d cs hs hr hd hl hb =>
    have hlim : p.chunkSize < appendLimit := hd ▸ hl
    rcases Nat.lt_or_ge w.length (p.chunkSize + 2) with hlt | hge
    · -- the chunk is not complete: its data, as far as it goes, is moved to the body
      have hpart := HttpParser.parseChunkedBody_part hr hlim hlt beyond
      rw [hd] at hpart hlt
      refine ⟨_, _, hpart, Nat.min_le_left _ _, ?_, fun _ => ?_⟩
      · rintro rfl
        have := congrArg List.length hwx
        simp only [chunkRest, List.append_nil, List.length_append, List.length_cons] at this
        omega
      · generalize hk : min w.length d.length = k
        have hkw : k ≤ w.length := by omega
        have hkd : k ≤ d.length := by omega
        have htake : w.take k = d.take k := by
          have hk' : (w ++ x).take k = w.take k := List.take_append_of_le_length hkw
          rw [← hk', hwx, chunkRest, List.append_assoc, List.take_append_of_le_length hkd]
        rw [hwx, chunkRest, List.append_assoc, List.drop_append_of_le_length hkd,
          ← List.append_assoc]
        refine .data (d.drop k) cs hs hr ?_ ?_ ?_
        · simp only [HttpParser.partly, hd, List.length_drop]
        · rw [List.length_drop]; omega
        · simp only [HttpParser.partly, htake]
          rw [List.append_assoc p.tempBody, List.take_append_drop]
          exact hb
    · rw [HttpParser.parseChunkedBody_full hr hlim hge]
      have htake : w.take p.chunkSize = d := by
        have hk : (w ++ x).take p.chunkSize = w.take p.chunkSize :=
          List.take_append_of_le_length (by omega)
        rw [← hk, hwx, hd, chunkRest, List.append_assoc, List.take_left]
      have hrest : w.drop (p.chunkSize + 2) ++ x = encodeChunks cs := by
        rw [← List.drop_append_of_le_length hge, hwx, hd]
        exact drop_line d _
      refine CallOk.shift hge (ih _ ?_ rfl ?_ beyond)
      · rw [List.length_drop]; omega
      · rw [hrest]
        exact .size cs hs rfl (by rw [htake]; exact hb)

/-! ## Any segmentation -/

/-- Calls of `parse_chunked_body` on growing prefixes of the stream `s`, each on all
bytes not yet consumed: with the first `k` bytes presented, `p` has consumed `n`. -/
inductive Calls (s : Bytes) : HttpParser → Nat → Nat → Prop where
  | start {p : HttpParser} (hs : p.state = .chunkedBody) (hr : p.readingChunkSize = true)
      (hb : p.tempBody = []) : Calls s p 0 0
  | call {p q : HttpParser} {n k m c : Nat} {beyond : Bytes} (h : Calls s p n k)
      (hs : p.state = .chunkedBody) (hkm : k ≤ m) (hm : m ≤ s.length)
      (hc : p.parseChunkedBody ((s.take m).drop n) beyond = .ok (q, c)) : Calls s q (n + c) m

variable {cs : List Chunk} {n k : Nat}

theorem window_append (s : Bytes) {n m : Nat} (hnm : n ≤ m) (hm : m ≤ s.length) :
    (s.take m).drop n ++ s.drop m = s.drop n := by
  rw [← List.drop_append_of_le_length (by rw [List.length_take]; omega), List.take_append_drop]

theorem Calls.inv (h : Calls (encodeChunks cs) p n k) :
    n ≤ k ∧ k ≤ (encodeChunks cs).length ∧
    ((k = (encodeChunks cs).length ∧ n = k ∧ Finished (chunksData cs) p) ∨
      (k < (encodeChunks cs).length ∧ Mid (chunksData cs) p ((encodeChunks cs).drop n))) := by
  induction h with
  | start hs hr hb =>
    refine ⟨Nat.le_refl 0, Nat.zero_le _, .inr ⟨?_, .size cs hs hr (by rw [hb]; rfl)⟩⟩
    exact List.length_pos_iff.mpr (encodeChunks_ne_nil cs)
  | @call p q n k m c beyond h hs hkm hm hc ih =>
    obtain ⟨hnk, hk, ⟨-, -, hfin⟩ | ⟨-, hmid⟩⟩ := ih
    · rw [hfin.state] at hs; cases hs
    rw [← window_append _ (Nat.le_trans hnk hkm) hm] at hmid
    obtain ⟨q', c', hq, hle, hnil, hne⟩ := hmid.call beyond
    rw [hc, Except.ok.injEq, Prod.mk.injEq] at hq
    obtain ⟨rfl, rfl⟩ := hq
    rw [List.length_drop, List.length_take, Nat.min_eq_left hm] at hle hnil
    refine ⟨by omega, hm, ?_⟩
    rcases Nat.lt_or_ge m (encodeChunks cs).length with hlt | hge
    · refine .inr ⟨hlt, ?_⟩
      rw [window_append _ (Nat.le_trans hnk hkm) hm, List.drop_drop] at hne
      exact hne (by rw [Ne, List.drop_eq_nil_iff]; omega)
    · obtain ⟨hcm, hfin⟩ := hnil (List.drop_eq_nil_of_le hge)
      exact .inl ⟨by omega, by omega, hfin⟩

/-- **The chunked round trip, under every segmentation.** The parser is done exactly
when the whole encoding has been presented, with the chunks' data as the body and the
encoding consumed to its last byte; until then every call succeeds and consumes at
most its window. -/
theorem chunked_round_trip (h : Calls (encodeChunks cs) p n k) :
    (p.state = .done ↔ k = (encodeChunks cs).length) ∧
    (p.state = .chunkedBody ↔ k < (encodeChunks cs).length) ∧
    (p.state = .done → p.request.body = chunksData cs ∧ n = (encodeChunks cs).length) ∧
    (∀ m beyond, p.state = .chunkedBody → k ≤ m → m ≤ (encodeChunks cs).length →
      ∃ q c, p.parseChunkedBody (((encodeChunks cs).take m).drop n) beyond = .ok (q, c) ∧
        c ≤ (((encodeChunks cs).take m).drop n).length) := by
  obtain ⟨hnk, hk, ⟨hkl, hn, hfin⟩ | ⟨hlt, hmid⟩⟩ := h.inv
  · have hst := hfin.state
    refine ⟨by simp [hst, hkl], by simp [hst, hkl], fun _ => ⟨hfin.body, hn.trans hkl⟩, ?_⟩
    intro m beyond hs
    rw [hst] at hs; cases hs
  · have hst := hmid.state
    refine ⟨by simp [hst, Nat.ne_of_lt hlt], by simp [hst, hlt], by simp [hst], ?_⟩
    intro m beyond _ hkm hm
    rw [← window_append _ (Nat.le_trans hnk hkm) hm] at hmid
    obtain ⟨q, c, hq, hle, -⟩ := hmid.call beyond
    exact ⟨q, c, hq, hle⟩

/-- One chunk, cut behind the CR of its size line and inside its data. -/
theorem chunked_round_trip_cut :
    ∃ (cs : List Chunk) (p : HttpParser) (n : Nat), chunksData cs = bytes "a\r\nb" ∧
      Calls (encodeChunks cs) p n (encodeChunks cs).length ∧ p.state = .done ∧
      p.request.body = bytes "a\r\nb" ∧ n = 13 := by
  let c : Chunk := ⟨bytes "04", bytes "a\r\nb", by decide, by decide, by decide⟩
  have h0 : Calls (encodeChunks [c]) { HttpParser.new with state := .chunkedBody } 0 0 :=
    .start rfl rfl rfl
  obtain ⟨q1, c1, hc1, -⟩ := (chunked_round_trip h0).2.2.2 3 [] rfl (by decide) (by decide)
  have h1 := h0.call rfl (by decide) (by decide) hc1
  have s1 := (chunked_round_trip h1).2.1.mpr (by decide)
  obtain ⟨q2, c2, hc2, -⟩ := (chunked_round_trip h1).2.2.2 6 [] s1 (by decide) (by decide)
  have h2 := h1.call s1 (by decide) (by decide) hc2
  have s2 := (chunked_round_trip h2).2.1.mpr (by decide)
  obtain ⟨q3, c3, hc3, -⟩ := (chunked_round_trip h2).2.2.2 13 [] s2 (by decide) (by decide)
  have h3 := h2.call s2 (by decide) (by decide) hc3
  have s3 := (chunked_round_trip h3).1.mpr (by decide)
  exact ⟨[c], q3, _, by decide, h3, s3, (chunked_round_trip h3).2.2.1 s3⟩

end Hound.Http
