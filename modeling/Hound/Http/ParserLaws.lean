import Hound.Http.Parser

/-!
# What one step of the parser does

`plainStep` is `dispatch` in the four states that frame a message without chunks.
`Inv` ties the two body counters together in every state. `plain_incremental` is
the law of `Lib/Consumer.lean` for `plainStep`: a step on a longer window does what
the step on the shorter one does, or goes on from it.
-/

namespace Hound.Http

open Lib Lib.Consumer

theorem findCrlf_le {w : Bytes} {i : Nat} (h : findCrlf w = some i) : i + 2 ≤ w.length :=
  findPair_lt h

theorem findCrlf_append {w : Bytes} {i : Nat} (h : findCrlf w = some i) (x : Bytes) :
    findCrlf (w ++ x) = some i := findPair_append h x

/-- The line in front of the first CRLF, and what follows it, on an extended window. -/
theorem line_append {w : Bytes} {i : Nat} (h : findCrlf w = some i) (x : Bytes) :
    (w ++ x).take i = w.take i ∧ (w ++ x).drop (i + 2) = w.drop (i + 2) ++ x := by
  have := findCrlf_le h
  exact ⟨List.take_append_of_le_length (by omega), List.drop_append_of_le_length (by omega)⟩

namespace HttpParser

/-- The states in which `parse` neither stops nor decodes chunks. -/
def plain (p : HttpParser) : Bool :=
  match p.state with
  | .start | .requestLine | .headers | .body => true
  | _ => false

def plainStep (p : HttpParser) (w : Bytes) : HttpParser × Nat :=
  match p.state with
  | .start | .requestLine => p.parseRequestLine w
  | .headers => p.parseHeaders w
  | .body => p.parseBody w
  | _ => (p, 0)

theorem dispatch_plain {p : HttpParser} (h : p.plain = true) (w beyond : Bytes) :
    p.dispatch w beyond = .ok (p.plainStep w) := by
  unfold plain at h
  unfold dispatch plainStep
  split at h <;> simp_all

/-- The body counters: nothing is read before the headers are done, and never more
than announced. -/
structure Inv (p : HttpParser) : Prop where
  before : p.state = .start ∨ p.state = .requestLine ∨ p.state = .headers → p.bodyRead = 0
  read_le : p.bodyRead ≤ p.contentLength
  length_lt : p.contentLength < sizeMod

theorem inv_new : new.Inv := ⟨fun _ => rfl, Nat.le_refl _, by decide⟩

variable {p : HttpParser} {w : Bytes}

/-! ## The request line -/

theorem requestOfLine_eq {r r' : HttpRequest} {line : Bytes} (h : requestOfLine r line = some r') :
    ∃ method path version, r' = { r with method := method, path := path, version := version } := by
  unfold requestOfLine at h
  split at h
  · cases h
  · split at h <;> cases h
    exact ⟨_, _, _, rfl⟩

theorem parseRequestLine_cases (p : HttpParser) (w : Bytes) :
    (findCrlf w = none ∧ p.parseRequestLine w = (p, 0)) ∨
    (∃ i, findCrlf w = some i ∧ requestOfLine p.request (w.take i) = none ∧
      p.parseRequestLine w = ({ p with state := .error }, 0)) ∨
    ∃ i r, findCrlf w = some i ∧ requestOfLine p.request (w.take i) = some r ∧
      p.parseRequestLine w = ({ p with request := r, state := .headers }, i + 2) := by
  unfold parseRequestLine
  cases hf : findCrlf w with
  | none => exact .inl ⟨rfl, rfl⟩
  | some i =>
    cases hr : requestOfLine p.request (w.take i) with
    | none => exact .inr (.inl ⟨i, rfl, hr, by simp only [hr]⟩)
    | some r => exact .inr (.inr ⟨i, r, rfl, hr, by simp only [hr]⟩)

theorem parseRequestLine_append {i : Nat} (h : findCrlf w = some i) (x : Bytes) :
    p.parseRequestLine (w ++ x) = p.parseRequestLine w := by
  simp only [parseRequestLine, h, findCrlf_append h x, (line_append h x).1]

/-! ## The headers -/

theorem endOfHeaders_state (p : HttpParser) :
    p.endOfHeaders.state = .chunkedBody ∨ p.endOfHeaders.state = .body ∨
      p.endOfHeaders.state = .done := by
  unfold endOfHeaders
  simp only
  split
  · exact .inl rfl
  · split
    · exact .inr (.inl rfl)
    · exact .inr (.inr rfl)

@[simp] theorem endOfHeaders_request (p : HttpParser) : p.endOfHeaders.request = p.request := by
  unfold endOfHeaders; simp only; repeat' split
  all_goals rfl

@[simp] theorem endOfHeaders_bodyRead (p : HttpParser) :
    p.endOfHeaders.bodyRead = p.bodyRead := by
  unfold endOfHeaders; simp only; repeat' split
  all_goals rfl

theorem endOfHeaders_length_lt (h : p.contentLength < sizeMod) :
    p.endOfHeaders.contentLength < sizeMod := by
  unfold endOfHeaders
  simp only
  split
  · exact h
  · split
    · cases hs : strtoul (p.request.header (bytes "Content-Length") ++ [0]) 10 with
      | none => exact Nat.two_pow_pos 64
      | some v => exact strtoul_lt hs
    · exact h

theorem headerLine_eq (p : HttpParser) (line : Bytes) :
    ∃ r, p.headerLine line = { p with request := r } := by
  unfold headerLine
  split
  · exact ⟨p.request, rfl⟩
  · exact ⟨_, rfl⟩

@[simp] theorem headerLine_state (p : HttpParser) (line : Bytes) :
    (p.headerLine line).state = p.state := by
  obtain ⟨r, hr⟩ := headerLine_eq p line
  rw [hr]

theorem parseHeaders_nil (p : HttpParser) : p.parseHeaders [] = (p, 0) := by
  rw [parseHeaders, if_pos rfl]

theorem parseHeaders_empty_line (p : HttpParser) (h : crlf <+: w) :
    p.parseHeaders w = (p.endOfHeaders, 2) := by
  have hw : w ≠ [] := by rintro rfl; simp at h
  rw [parseHeaders, if_neg hw, if_pos h]

theorem parseHeaders_line {i : Nat} (hn : ¬ crlf <+: w) (hf : findCrlf w = some i) :
    p.parseHeaders w =
      shift (i + 2) ((p.headerLine (w.take i)).parseHeaders (w.drop (i + 2))) := by
  have hw : w ≠ [] := by rintro rfl; cases hf
  rw [parseHeaders, if_neg hw, if_neg hn, hf]

theorem parseHeaders_le (p : HttpParser) (w : Bytes) : (p.parseHeaders w).2 ≤ w.length := by
  fun_induction parseHeaders p w with
  | case1 => exact Nat.zero_le _
  | case2 p w _ h => exact h.length_le
  | case3 => exact Nat.zero_le _
  | case4 p w _ _ i hf ih =>
    have := findCrlf_le hf
    simp only [List.length_drop, shift_snd] at *
    omega

theorem parseHeaders_idle (h : (p.parseHeaders w).2 = 0) : (p.parseHeaders w).1 = p := by
  fun_cases parseHeaders p w with
  | case1 => rfl
  | case2 hw hc => rw [parseHeaders_empty_line p hc] at h; cases h
  | case3 => rfl
  | case4 hw hc i hf =>
    rw [parseHeaders_line hc hf] at h
    simp only [shift_snd] at h
    omega

theorem crlf_prefix_append {w : Bytes} (h : 2 ≤ w.length) (x : Bytes) :
    crlf <+: w ++ x ↔ crlf <+: w := by
  constructor
  · intro hp
    exact List.prefix_of_prefix_length_le hp (List.prefix_append w x) h
  · exact fun hp => hp.trans (List.prefix_append w x)

/-- **Headers are read line by line.** On an extended window the call ends as before
at the empty line, or it goes on from where the shorter window left it. -/
theorem parseHeaders_append (p : HttpParser) (w x : Bytes) :
    (p.parseHeaders (w ++ x) = p.parseHeaders w ∧
      ∃ q : HttpParser, (p.parseHeaders w).1 = q.endOfHeaders ∧ q.state = p.state) ∨
    ((p.parseHeaders w).1.state = p.state ∧
      p.parseHeaders (w ++ x) = shift (p.parseHeaders w).2
        ((p.parseHeaders w).1.parseHeaders ((w ++ x).drop (p.parseHeaders w).2))) := by
  fun_induction parseHeaders p w with
  | case1 p => exact .inr ⟨rfl, by simp⟩
  | case2 p w _ hc =>
    exact .inl ⟨parseHeaders_empty_line p (hc.trans (List.prefix_append w x)), p, rfl, rfl⟩
  | case3 p w _ hc hf => exact .inr ⟨rfl, by simp⟩
  | case4 p w _ hc i hf ih =>
    obtain ⟨htake, hdrop⟩ := line_append hf x
    have hlen := findCrlf_le hf
    have hgo : p.parseHeaders (w ++ x) =
        shift (i + 2) ((p.headerLine (w.take i)).parseHeaders (w.drop (i + 2) ++ x)) := by
      rw [parseHeaders_line ((crlf_prefix_append (by omega) x).not.mpr hc) (findCrlf_append hf x),
        htake, hdrop]
    rw [hgo]
    rcases ih with ⟨he, q, hq, hqs⟩ | ⟨hs, he⟩
    · exact .inl ⟨by rw [he], q, hq, by rw [hqs, headerLine_state]⟩
    · refine .inr ⟨by rw [shift_fst, hs, headerLine_state], ?_⟩
      have hrest (n : Nat) : (w ++ x).drop (i + 2 + n) = (w.drop (i + 2) ++ x).drop n := by
        rw [← List.drop_drop, hdrop]
      rw [he, shift_shift, shift_fst, shift_snd, hrest]

/-- What a call of `parse_headers` leaves: the empty line was reached, or the state is the same. -/
theorem parseHeaders_state (p : HttpParser) (w : Bytes) :
    (∃ q : HttpParser, (p.parseHeaders w).1 = q.endOfHeaders ∧ q.state = p.state ∧
      q.bodyRead = p.bodyRead ∧ q.contentLength = p.contentLength) ∨
    ((p.parseHeaders w).1.state = p.state ∧ (p.parseHeaders w).1.bodyRead = p.bodyRead ∧
      (p.parseHeaders w).1.contentLength = p.contentLength) := by
  fun_induction parseHeaders p w with
  | case1 p => exact .inr ⟨rfl, rfl, rfl⟩
  | case2 p w _ hc => exact .inl ⟨p, rfl, rfl, rfl, rfl⟩
  | case3 p w _ hc hf => exact .inr ⟨rfl, rfl, rfl⟩
  | case4 p w _ hc i hf ih =>
    obtain ⟨r, hr⟩ := headerLine_eq p (w.take i)
    rw [hr] at ih ⊢
    exact ih

/-! ## The body -/

theorem Inv.needed (h : p.Inv) :
    sizeSub p.contentLength p.bodyRead = p.contentLength - p.bodyRead :=
  sizeSub_of_le h.read_le h.length_lt

def grown (p : HttpParser) (w : Bytes) : HttpParser :=
  { p with tempBody := p.tempBody ++ w, bodyRead := p.bodyRead + w.length }

def completed (p : HttpParser) : HttpParser :=
  { p with request := { p.request with body := p.tempBody }, state := .done }

/-- A window that falls short of the announced length is taken whole. -/
theorem Inv.parseBody_short (h : p.Inv) (hw : p.bodyRead + w.length < p.contentLength) :
    p.parseBody w = (p.grown w, w.length) := by
  have hmin : min (sizeSub p.contentLength p.bodyRead) w.length = w.length := by
    rw [h.needed]; omega
  unfold parseBody grown
  simp only [hmin, List.take_length]
  rw [if_neg (by omega)]

theorem Inv.parseBody_full (h : p.Inv) (hw : p.contentLength ≤ p.bodyRead + w.length) :
    p.parseBody w = ((p.grown (w.take (p.contentLength - p.bodyRead))).completed,
      p.contentLength - p.bodyRead) := by
  have hle := h.read_le
  have hmin : min (sizeSub p.contentLength p.bodyRead) w.length = p.contentLength - p.bodyRead := by
    rw [h.needed]; omega
  unfold parseBody grown completed
  simp only [hmin, List.length_take]
  rw [if_pos (by omega), show min (p.contentLength - p.bodyRead) w.length =
    p.contentLength - p.bodyRead by omega]

theorem grown_nil (p : HttpParser) : p.grown [] = p := by
  unfold grown; simp

theorem grown_grown (p : HttpParser) (w x : Bytes) : (p.grown w).grown x = p.grown (w ++ x) := by
  simp [grown, List.append_assoc, Nat.add_assoc]

theorem Inv.grown (h : p.Inv) (hs : p.state = .body)
    (hw : p.bodyRead + w.length ≤ p.contentLength) :
    (p.grown w).Inv := by
  refine ⟨fun hb => ?_, hw, h.length_lt⟩
  have : (p.grown w).state = .body := hs
  simp [this] at hb

theorem Inv.completed (h : p.Inv) : p.completed.Inv :=
  ⟨fun hb => by simp [HttpParser.completed] at hb, h.read_le, h.length_lt⟩

/-! ## The law -/

/-- `plainStep` as a consumer; it halts where it stops or leaves the plain states. -/
def plainMachine : Consumer HttpParser Byte where
  step := plainStep
  halted p := !p.plain

theorem not_halted {p : HttpParser} : plainMachine.halted p = false ↔ p.plain = true := by
  simp [plainMachine]

theorem plain_of_state {s : State} (h : p.state = s)
    (hs : s = .start ∨ s = .requestLine ∨ s = .headers ∨ s = .body) : p.plain = true := by
  unfold plain; rw [h]; rcases hs with rfl | rfl | rfl | rfl <;> rfl

theorem plain_cases (h : p.plain = true) :
    ((p.state = .start ∨ p.state = .requestLine) ∧ p.plainStep = p.parseRequestLine) ∨
    (p.state = .headers ∧ p.plainStep = p.parseHeaders) ∨
    (p.state = .body ∧ p.plainStep = p.parseBody) := by
  unfold plain at h
  unfold plainStep
  cases hs : p.state <;> simp_all

theorem keep_inv (h : p.Inv) (hp : p.plain = true) (w : Bytes) : (p.plainStep w).1.Inv := by
  rcases plain_cases hp with ⟨hs, he⟩ | ⟨hs, he⟩ | ⟨hs, he⟩
  · have h0 := h.before (by tauto)
    rw [he]
    rcases parseRequestLine_cases p w with ⟨-, hr⟩ | ⟨i, -, -, hr⟩ | ⟨i, r, -, -, hr⟩
    · rw [hr]; exact h
    · rw [hr]; exact ⟨fun _ => h0, h.read_le, h.length_lt⟩
    · rw [hr]; exact ⟨fun _ => h0, h.read_le, h.length_lt⟩
  · have h0 := h.before (by tauto)
    rw [he]
    rcases parseHeaders_state p w with ⟨q, hq, -, hb, hl⟩ | ⟨hst, hb, hl⟩
    · rw [hq]
      refine ⟨fun hst => ?_, ?_, endOfHeaders_length_lt (hl ▸ h.length_lt)⟩
      · rcases endOfHeaders_state q with hx | hx | hx <;> simp [hx] at hst
      · rw [endOfHeaders_bodyRead, hb, h0]; exact Nat.zero_le _
    · exact ⟨fun _ => by rw [hb, h0], by rw [hb, hl]; exact h.read_le,
        by rw [hl]; exact h.length_lt⟩
  · rw [he]
    have hle := h.read_le
    rcases Nat.lt_or_ge (p.bodyRead + w.length) p.contentLength with hlt | hge
    · rw [h.parseBody_short hlt]
      exact h.grown hs (by omega)
    · rw [h.parseBody_full hge]
      exact (h.grown hs (by rw [List.length_take]; omega)).completed

theorem step_le (h : p.Inv) (hp : p.plain = true) (w : Bytes) : (p.plainStep w).2 ≤ w.length := by
  rcases plain_cases hp with ⟨-, he⟩ | ⟨-, he⟩ | ⟨-, he⟩
  · rw [he]
    rcases parseRequestLine_cases p w with ⟨-, hr⟩ | ⟨i, -, -, hr⟩ | ⟨i, r, hf, -, hr⟩
    · rw [hr]; exact Nat.zero_le _
    · rw [hr]; exact Nat.zero_le _
    · rw [hr]; exact findCrlf_le hf
  · rw [he]; exact parseHeaders_le p w
  · rw [he]
    rcases Nat.lt_or_ge (p.bodyRead + w.length) p.contentLength with hlt | hge
    · rw [h.parseBody_short hlt]
    · rw [h.parseBody_full hge]
      simp only
      omega

/-- A plain step that consumes nothing does nothing, fails or completes the message. -/
theorem plainStep_idle (h : p.Inv) (hp : p.plain = true) (h0 : (p.plainStep w).2 = 0) :
    (p.plainStep w).1 = p ∨ (p.plainStep w).1.state = .done ∨ (p.plainStep w).1.state = .error := by
  rcases plain_cases hp with ⟨-, he⟩ | ⟨-, he⟩ | ⟨-, he⟩
  · rw [he] at h0 ⊢
    rcases parseRequestLine_cases p w with ⟨-, hr⟩ | ⟨i, -, -, hr⟩ | ⟨i, r, -, -, hr⟩
    · rw [hr]; exact .inl rfl
    · rw [hr]; exact .inr (.inr rfl)
    · rw [hr] at h0; cases h0
  · rw [he] at h0 ⊢; exact .inl (parseHeaders_idle h0)
  · rw [he] at h0 ⊢
    rcases Nat.lt_or_ge (p.bodyRead + w.length) p.contentLength with hlt | hge
    · rw [h.parseBody_short hlt] at h0 ⊢
      rw [List.length_eq_zero_iff.mp h0]
      exact .inl (grown_nil p)
    · rw [h.parseBody_full hge]; exact .inr (.inl rfl)

theorem step_idle (h : p.Inv) (hp : p.plain = true) (h0 : (p.plainStep w).2 = 0) :
    (p.plainStep w).1 = p ∨ (p.plainStep w).1.plain = false := by
  apply (plainStep_idle h hp h0).imp_right
  unfold plain
  rintro (hs | hs) <;> rw [hs]

theorem step_split (h : p.Inv) (hp : p.plain = true) (w x : Bytes) :
    p.plainStep (w ++ x) = p.plainStep w ∨
    ((p.plainStep w).1.plain = true ∧ (p.plainStep w).1.plainStep [] = ((p.plainStep w).1, 0) ∧
      p.plainStep (w ++ x) = shift (p.plainStep w).2
        ((p.plainStep w).1.plainStep ((w ++ x).drop (p.plainStep w).2))) := by
  rcases plain_cases hp with ⟨-, he⟩ | ⟨hs, he⟩ | ⟨hs, he⟩
  · rw [he]
    cases hf : findCrlf w with
    | none =>
      have hr : p.parseRequestLine w = (p, 0) := by simp only [parseRequestLine, hf]
      refine .inr ⟨by rw [hr]; exact hp, by rw [hr, he]; rfl, ?_⟩
      rw [hr, he]; simp
    | some i => exact .inl (parseRequestLine_append hf x)
  · have hstep {q : HttpParser} (hq : q.state = .headers) : q.plainStep = q.parseHeaders := by
      unfold plainStep; rw [hq]
    rw [he]
    rcases parseHeaders_append p w x with ⟨heq, -⟩ | ⟨hst, heq⟩
    · exact .inl heq
    · rw [hs] at hst
      rw [hstep hst]
      exact .inr ⟨plain_of_state hst (by tauto), parseHeaders_nil _, heq⟩
  · have hstep {q : HttpParser} (hq : q.state = .body) : q.plainStep = q.parseBody := by
      unfold plainStep; rw [hq]
    rw [he]
    rcases Nat.lt_or_ge (p.bodyRead + w.length) p.contentLength with hlt | hge
    · have hgs : (p.grown w).state = .body := hs
      have hg := h.grown hs (w := w) (by omega)
      have hgr : (p.grown w).bodyRead = p.bodyRead + w.length := rfl
      have hgl : (p.grown w).contentLength = p.contentLength := rfl
      rw [h.parseBody_short hlt]
      simp only [List.drop_left]
      rw [hstep hgs]
      refine .inr ⟨plain_of_state hgs (by tauto), ?_, ?_⟩
      · rw [hg.parseBody_short (by rw [hgr, hgl]; simpa using hlt), grown_nil]; rfl
      · rcases Nat.lt_or_ge (p.bodyRead + w.length + x.length) p.contentLength with hlt' | hge'
        · rw [h.parseBody_short (by rw [List.length_append]; omega),
            hg.parseBody_short (by rw [hgr, hgl]; exact hlt'), grown_grown]
          simp [shift]
        · rw [h.parseBody_full (by rw [List.length_append]; omega),
            hg.parseBody_full (by rw [hgr, hgl]; exact hge'), grown_grown, hgr, hgl,
            List.take_append,
            List.take_of_length_le (by omega : w.length ≤ p.contentLength - p.bodyRead)]
          simp only [shift, Nat.sub_sub]
          rw [show w.length + (p.contentLength - (p.bodyRead + w.length)) =
            p.contentLength - p.bodyRead by omega]
    · left
      have := h.read_le
      rw [h.parseBody_full hge, h.parseBody_full (by rw [List.length_append]; omega),
        List.take_append_of_le_length (by omega)]

theorem plain_incremental : plainMachine.Incremental Inv where
  keep w hI hs := keep_inv hI (not_halted.mp hs) w
  le w hI hs := step_le hI (not_halted.mp hs) w
  idle hI hs h0 := by
    simpa [plainMachine] using step_idle hI (not_halted.mp hs) h0
  split w x hI hs := by
    simpa [plainMachine] using step_split hI (not_halted.mp hs) w x

end HttpParser

end Hound.Http
