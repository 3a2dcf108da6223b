import Hound.Http.Server

/-!
# The loop of `on_message`

`serve_induction` is the rule for the loop: one case for each way out of it and one for
each way around, with the fuel settled once. From it: a connection whose buffer still
lies in its first block keeps it there (`serve_contiguous`), and one with nothing to do
leaves its buffer alone (`serve_settled`). `Served.oneBlock` and `Served.jammed` carry
both along a run: whatever the stream, a connection reads no further than `kBlockSize`
bytes into it.
-/

namespace Hound.Http

open Lib Lib.Consumer HttpParser

variable {H : Type} {env : ServerEnv H}

namespace Connection

def parsed (c : Connection H) (p : HttpParser) (buf : Buffer) : Connection H :=
  { c with parser := p, readBuf := buf }

def complete (env : ServerEnv H) (c : Connection H) (p : HttpParser) (buf : Buffer) :
    Connection H :=
  let c := (c.parsed p buf).handleRequest env
  { c with parser := c.parser.reset }

def reject (env : ServerEnv H) (c : Connection H) (p : HttpParser) (buf : Buffer) :
    Connection H :=
  ((c.parsed p buf).sendResponse env (.notFound (bytes "400 Bad Request"))).onClose

/-- The requests that `handle_request` was called for. -/
def reported (c : Connection H) : List HttpRequest :=
  c.log.filterMap fun
    | .handle _ req _ => some req
    | _ => none

/-! ## What the handlers leave alone -/

section Frame

variable (c : Connection H) (p : HttpParser) (buf : Buffer) (resp : HttpResponse)

@[simp] theorem onClose_readBuf : c.onClose.readBuf = c.readBuf := by
  unfold onClose; split <;> rfl

theorem closed_onClose : c.onClose.closed = true := by
  unfold onClose
  split
  · next h => exact h
  · rfl

theorem turn_record (e : Event H) : (c.record e).turn = c.turn + 1 := by
  simp [turn, record]

@[simp] theorem parser_onClose : c.onClose.parser = c.parser := by
  unfold onClose; split <;> rfl

theorem reported_record (e : Event H) :
    (c.record e).reported = c.reported ++ [e].filterMap fun
      | .handle _ req _ => some req
      | _ => none := by
  simp only [reported, record, List.filterMap_append]

@[simp] theorem onClose_reported : c.onClose.reported = c.reported := by
  unfold onClose
  split
  · rfl
  · rw [reported_record]; exact List.append_nil _

@[simp] theorem sendResponse_readBuf : (c.sendResponse env resp).readBuf = c.readBuf := by
  unfold sendResponse; simp only; split
  · rw [onClose_readBuf]; rfl
  · rfl

@[simp] theorem parser_sendResponse : (c.sendResponse env resp).parser = c.parser := by
  unfold sendResponse; simp only; split
  · rw [parser_onClose]; rfl
  · rfl

@[simp] theorem sendResponse_reported : (c.sendResponse env resp).reported = c.reported := by
  unfold sendResponse; simp only; split
  · rw [onClose_reported, reported_record]; exact List.append_nil _
  · rw [reported_record]; exact List.append_nil _

@[simp] theorem handleRequest_readBuf : (c.handleRequest env).readBuf = c.readBuf := by
  unfold handleRequest; simp only; split
  · rw [sendResponse_readBuf]; rfl
  · rw [onClose_readBuf, sendResponse_readBuf]; rfl

@[simp] theorem handleRequest_reported :
    (c.handleRequest env).reported = c.reported ++ [c.parser.request] := by
  unfold handleRequest; simp only; split
  · rw [sendResponse_reported, reported_record]; rfl
  · rw [onClose_reported, sendResponse_reported, reported_record]; rfl

@[simp] theorem complete_readBuf : (c.complete env p buf).readBuf = buf :=
  handleRequest_readBuf (c.parsed p buf)

@[simp] theorem parser_complete : (c.complete env p buf).parser = .new := rfl

@[simp] theorem complete_reported :
    (c.complete env p buf).reported = c.reported ++ [p.request] :=
  handleRequest_reported (c.parsed p buf)

@[simp] theorem reject_readBuf : (c.reject env p buf).readBuf = buf := by
  unfold reject; rw [onClose_readBuf, sendResponse_readBuf]; rfl

@[simp] theorem parser_reject : (c.reject env p buf).parser = p := by
  unfold reject; rw [parser_onClose, parser_sendResponse]; rfl

end Frame

/-! ## The rule -/

theorem serveLoop_empty {c : Connection H} (h0 : c.readBuf.size = 0) (fuel : Nat) :
    c.serveLoop env fuel = (c, .loopEnd) := by
  cases fuel with
  | zero => rfl
  | succ fuel => rw [serveLoop, if_pos h0]

theorem serveLoop_threw {c : Connection H} (h0 : c.readBuf.size ≠ 0) {e : Fault}
    (hp : c.parser.parse c.readBuf = .error e) (fuel : Nat) :
    c.serveLoop env (fuel + 1) = (c, .threw e) := by
  rw [serveLoop, if_neg h0, hp]

theorem serveLoop_parsed {c : Connection H} (h0 : c.readBuf.size ≠ 0) {p : HttpParser}
    {buf : Buffer} {k : Nat} (hp : c.parser.parse c.readBuf = .ok (p, buf, k)) (fuel : Nat) :
    c.serveLoop env (fuel + 1) =
      if p.state = .error then (c.reject env p buf, .badRequest)
      else if p.state = .done then (c.complete env p buf).serveLoop env fuel
      else if k = 0 then (c.parsed p buf, .loopEnd)
      else (c.parsed p buf).serveLoop env fuel := by
  rw [serveLoop, if_neg h0, hp]
  simp only [hasError, isDone, decide_eq_true_eq]
  rfl

end Connection

open Connection

theorem dispatch_start {p : HttpParser} (hs : p.state = .start) (w beyond : Bytes) :
    p.dispatch w beyond = .ok (p.parseRequestLine w) := by
  unfold dispatch; rw [hs]

/-- A parser at the start of a request that consumes nothing has not completed one. -/
theorem parse_start_idle {p q : HttpParser} {b b' : Buffer} (hb : b.Valid) (hs : p.state = .start)
    (h : p.parse b = .ok (q, b', 0)) : q.state ≠ .done := by
  refine parse_induction (motive := fun p _ r => p.state = .start → ∀ q b', r = .ok (q, b', 0) →
    q.state ≠ .done) ?empty ?threw ?wait ?more hb hs q b' h
  case empty => rintro p b - - hs q b' ⟨⟩; rw [hs]; decide
  case threw => rintro _ _ _ _ _ _ _ _ _ h; cases h
  case wait =>
    rintro p q b - - hd hs q' b' ⟨⟩
    rw [dispatch_start hs, Except.ok.injEq] at hd
    rcases parseRequestLine_cases p b.window with ⟨-, hr⟩ | ⟨i, -, -, hr⟩ | ⟨i, r, -, -, hr⟩
    · rw [hr] at hd; cases hd; rw [hs]; decide
    · rw [hr] at hd; cases hd; simp
    · rw [hr] at hd; cases hd
  case more =>
    rintro p q b c (e | a) - - - hc - - q' b' hr
    · cases hr
    · simp only [Except.map, advance, Except.ok.injEq, Prod.mk.injEq] at hr
      omega

/-- The turns that are left: one for each byte and one for each request that may
complete without a byte. -/
def turnsLeft (c : Connection H) : Nat :=
  2 * c.readBuf.size + if c.parser.state = .start then 0 else 1

/-- **Induction along the loop of `on_message`.** -/
theorem serve_induction {motive : Connection H → Connection H × Exit → Prop}
    (empty : ∀ {c : Connection H}, c.readBuf.Valid → Sound c.parser → c.readBuf.size = 0 →
      motive c (c, .loopEnd))
    (threw : ∀ {c : Connection H} {e : Fault}, c.readBuf.Valid → Sound c.parser →
      c.readBuf.size ≠ 0 → c.parser.parse c.readBuf = .error e → motive c (c, .threw e))
    (bad : ∀ {c : Connection H} {p : HttpParser} {buf : Buffer} {k : Nat}, c.readBuf.Valid →
      Sound c.parser → c.readBuf.size ≠ 0 → c.parser.parse c.readBuf = .ok (p, buf, k) →
      p.state = .error → motive c (c.reject env p buf, .badRequest))
    (wait : ∀ {c : Connection H} {p : HttpParser} {buf : Buffer}, c.readBuf.Valid →
      Sound c.parser → c.readBuf.size ≠ 0 → c.parser.parse c.readBuf = .ok (p, buf, 0) →
      p.state ≠ .error → p.state ≠ .done → motive c (c.parsed p buf, .loopEnd))
    (done : ∀ {c : Connection H} {p : HttpParser} {buf : Buffer} {k : Nat}
      {r : Connection H × Exit}, c.readBuf.Valid → Sound c.parser → c.readBuf.size ≠ 0 →
      c.parser.parse c.readBuf = .ok (p, buf, k) → p.state = .done →
      motive (c.complete env p buf) r → motive c r)
    (more : ∀ {c : Connection H} {p : HttpParser} {buf : Buffer} {k : Nat}
      {r : Connection H × Exit}, c.readBuf.Valid → Sound c.parser → c.readBuf.size ≠ 0 →
      c.parser.parse c.readBuf = .ok (p, buf, k) → k ≠ 0 → p.state ≠ .error → p.state ≠ .done →
      motive (c.parsed p buf) r → motive c r) :
    ∀ {fuel : Nat} {c : Connection H}, c.readBuf.Valid → Sound c.parser → turnsLeft c < fuel →
      motive c (c.serveLoop env fuel) := by
  intro fuel
  induction fuel with
  | zero => intro c _ _ hf; exact absurd hf (Nat.not_lt_zero _)
  | succ fuel ih =>
    intro c hv hp hf
    by_cases h0 : c.readBuf.size = 0
    · rw [serveLoop_empty h0]; exact empty hv hp h0
    · cases hr : c.parser.parse c.readBuf with
      | error e => rw [serveLoop_threw h0 hr]; exact threw hv hp h0 hr
      | ok a =>
        obtain ⟨p, buf, k⟩ := a
        obtain ⟨hv', -, hsize, hp', -, -⟩ := parse_spec hv hp hr
        rw [serveLoop_parsed h0 hr]
        by_cases he : p.state = .error
        · rw [if_pos he]; exact bad hv hp h0 hr he
        rw [if_neg he]
        by_cases hd : p.state = .done
        · rw [if_pos hd]
          -- without a byte consumed, the parser was not at the start
          have hturn : turnsLeft (c.complete env p buf) < turnsLeft c := by
            unfold turnsLeft
            rw [complete_readBuf, parser_complete, if_pos (show new.state = .start from rfl)]
            by_cases hk : k = 0
            · subst hk
              rw [if_neg fun hs => parse_start_idle hv hs hr hd]
              omega
            · omega
          refine done hv hp h0 hr hd (ih ?_ sound_new (by omega))
          rw [complete_readBuf]; exact hv'
        · rw [if_neg hd]
          by_cases hk : k = 0
          · subst hk; rw [if_pos rfl]; exact wait hv hp h0 hr he hd
          · rw [if_neg hk]
            have hturn : turnsLeft (c.parsed p buf) < turnsLeft c := by
              unfold turnsLeft parsed
              simp only
              split <;> split <;> omega
            exact more hv hp h0 hr hk he hd (ih hv' hp' (by omega))

theorem turnsLeft_lt_serveFuel (c : Connection H) : turnsLeft c < c.serveFuel := by
  unfold turnsLeft serveFuel; split <;> omega

/-! ## Nothing to do -/

/-- The loop has nothing to do until the read block shows more. -/
def Connection.Settled (c : Connection H) : Prop :=
  c.readBuf.window = [] ∨ (Stuck c.parser c.readBuf.window ∧ c.parser.state ≠ .done)

theorem window_eq_nil {b : Buffer} (hb : b.Valid) (h0 : b.size = 0) : b.window = [] := by
  have hle := hb.window_le
  exact List.length_eq_zero_iff.mp (by omega)

/-- `parse` then leaves the buffer alone, and the parser too if it sees any bytes. -/
theorem Connection.Settled.parse {c : Connection H} (hv : c.readBuf.Valid) (hp : Sound c.parser)
    (h : c.Settled) {p : HttpParser} {buf : Buffer} {k : Nat}
    (hr : c.parser.parse c.readBuf = .ok (p, buf, k)) :
    buf = c.readBuf ∧ k = 0 ∧
      (c.readBuf.window = [] ∨ p = c.parser ∧ c.parser.state ≠ .done) := by
  rcases h with hw | ⟨hs, hd⟩
  · by_cases h0 : c.readBuf.size = 0
    · rw [parse_empty _ h0] at hr
      cases hr
      exact ⟨rfl, rfl, .inl hw⟩
    · obtain ⟨q, hq⟩ := dispatch_nil hp
      rw [parse_eq hv c.parser h0, hw, hq] at hr
      cases hr
      exact ⟨rfl, rfl, .inl hw⟩
  · rw [hs.parse hv] at hr
    cases hr
    exact ⟨rfl, rfl, .inr ⟨rfl, hd⟩⟩

/-- **A settled connection's loop leaves the buffer alone.** -/
theorem serve_settled (env : ServerEnv H) {fuel : Nat} {c : Connection H} (hv : c.readBuf.Valid)
    (hp : Sound c.parser) (hf : turnsLeft c < fuel) (h : c.Settled) :
    (c.serveLoop env fuel).1.readBuf = c.readBuf ∧
      ((c.serveLoop env fuel).2 = .loopEnd →
        Sound (c.serveLoop env fuel).1.parser ∧ (c.serveLoop env fuel).1.Settled) := by
  refine serve_induction (motive := fun c r => c.Settled → r.1.readBuf = c.readBuf ∧
    (r.2 = .loopEnd → Sound r.1.parser ∧ r.1.Settled))
    ?empty ?threw ?bad ?wait ?done ?more hv hp hf h
  case empty => intro c _ hp _ h; exact ⟨rfl, fun _ => ⟨hp, h⟩⟩
  case threw => intro c e _ _ _ _ h; exact ⟨rfl, nofun⟩
  case bad =>
    intro c p buf k hv hp _ hr _ h
    obtain ⟨rfl, -, -⟩ := h.parse hv hp hr
    exact ⟨reject_readBuf c p c.readBuf, nofun⟩
  case wait =>
    intro c p buf hv hp _ hr _ hd h
    obtain ⟨rfl, -, hend⟩ := h.parse hv hp hr
    refine ⟨rfl, fun _ => ⟨(parse_spec hv hp hr).2.2.2.1, ?_⟩⟩
    rcases hend with hw | ⟨rfl, -⟩
    · exact .inl hw
    · exact h
  case done =>
    intro c p buf k r hv hp _ hr hdone ih h
    obtain ⟨rfl, -, hend⟩ := h.parse hv hp hr
    rw [complete_readBuf] at ih
    rcases hend with hw | ⟨rfl, hd⟩
    · exact ih (.inl (by rw [complete_readBuf]; exact hw))
    · exact absurd hdone hd
  case more =>
    intro c p buf k r hv hp _ hr hk _ _ _ h
    exact absurd (h.parse hv hp hr).2.1 hk

/-- **The loop keeps contiguous content contiguous** and ends settled. -/
theorem serve_contiguous (env : ServerEnv H) {J : Buffer → Prop} (hJ : Buffer.Contiguous J)
    {fuel : Nat} {c : Connection H} (hb : J c.readBuf) (hp : Sound c.parser)
    (hf : turnsLeft c < fuel) :
    J (c.serveLoop env fuel).1.readBuf ∧
      ((c.serveLoop env fuel).2 = .loopEnd →
        Sound (c.serveLoop env fuel).1.parser ∧ (c.serveLoop env fuel).1.Settled) := by
  have hkeep {p q : HttpParser} {b b' : Buffer} {k : Nat} (hb : J b)
      (hr : p.parse b = .ok (q, b', k)) : J b' :=
    (parse_keeps (I := fun _ => True) (fun h _ => h) (fun n h => hJ.retrieve n h) (hJ.valid hb)
      trivial hb hr).2
  refine serve_induction (motive := fun c r => J c.readBuf → J r.1.readBuf ∧
    (r.2 = .loopEnd → Sound r.1.parser ∧ r.1.Settled))
    ?empty ?threw ?bad ?wait ?done ?more (hJ.valid hb) hp hf hb
  case empty => intro c hv hp h0 h; exact ⟨h, fun _ => ⟨hp, .inl (window_eq_nil hv h0)⟩⟩
  case threw => intro c e _ _ _ _ h; exact ⟨h, nofun⟩
  case bad =>
    intro c p buf k _ _ _ hr _ h
    exact ⟨by rw [reject_readBuf]; exact hkeep h hr, nofun⟩
  case wait =>
    intro c p buf hv hp _ hr _ hd h
    obtain ⟨hv', -, -, hp', hend, -⟩ := parse_spec hv hp hr
    exact ⟨hkeep h hr, fun _ => ⟨hp', hend.imp (window_eq_nil hv') fun hs => ⟨hs, hd⟩⟩⟩
  case done =>
    intro c p buf k r _ _ _ hr _ ih h
    exact ih (by rw [complete_readBuf]; exact hkeep h hr)
  case more => intro c p buf k r _ _ _ hr _ _ _ ih h; exact ih (hkeep h hr)

/-- Without a CR in sight the loop waits for the end of the request line. -/
theorem serve_no_cr {c : Connection H} (hv : c.readBuf.Valid) (hs : c.parser.state = .start)
    (hw : CR ∉ c.readBuf.window) (fuel : Nat) : c.serveLoop env fuel = (c, .loopEnd) := by
  have hstuck : Stuck c.parser c.readBuf.window := by
    intro beyond
    rw [dispatch_start hs]
    unfold parseRequestLine findCrlf
    rw [findPair_eq_none_of_notMem hw]
  by_cases h0 : c.readBuf.size = 0
  · exact serveLoop_empty h0 fuel
  cases fuel with
  | zero => rfl
  | succ fuel =>
    rw [serveLoop_parsed h0 (hstuck.parse hv), hs]
    rfl

/-! ## Runs -/

def Connection.received (c : Connection H) (bs : Bytes) : Connection H :=
  { c with readBuf := c.readBuf.writeVia bs }

theorem onMessage_data {c : Connection H} {bs : Bytes} (hv : c.readBuf.Valid)
    (hopen : c.closed = false) (hne : bs ≠ []) :
    c.onMessage env (.data bs) =
      (c.received bs).serveLoop env (c.received bs).serveFuel := by
  have hroom : c.readBuf.beginWrite.2.1 ≠ 0 := Nat.ne_of_gt hv.writable_begun_pos
  obtain ⟨b, bs, rfl⟩ := List.exists_cons_of_ne_nil hne
  unfold onMessage
  rw [if_neg (by rw [hopen]; exact Bool.false_ne_true)]
  simp only [if_neg hroom]
  rfl

variable {stream : Bytes} {c : Connection H} {exit : Exit}

theorem Served.next [HeadMemory] (h : Served env stream c .loopEnd) (bs : Bytes)
    (hr : c.closed = false ∧ bs ≠ [] ∧ bs.length ≤ c.readBuf.room ∧
      (c.onMessage env (.data bs)).2 = .loopEnd) :
    Served env (stream ++ bs) (c.onMessage env (.data bs)).1 .loopEnd :=
  .read h hr.1 hr.2.1 hr.2.2.1 (Prod.ext rfl hr.2.2.2)

/-- **Up to `kBlockSize` bytes the buffer keeps to its first block.** -/
theorem Served.oneBlock [HeadMemory] (h : Served env stream c exit)
    (hlen : stream.length ≤ kBlockSize) :
    c.readBuf.OneBlock stream.length ∧
      (exit = .loopEnd → Sound c.parser ∧ c.Settled) := by
  induction h with
  | accept =>
    exact ⟨Buffer.oneBlock_new, fun _ => ⟨sound_new, .inl (window_eq_nil Buffer.valid_new rfl)⟩⟩
  | @read stream bs c c' exit h hopen hne hroom hr ih =>
    have hpos : 0 < bs.length := List.length_pos_iff.mpr hne
    rw [List.length_append] at hlen ⊢
    obtain ⟨hone, hend⟩ := ih (by omega)
    obtain ⟨hp, -⟩ := hend rfl
    have hone' : (c.received bs).readBuf.OneBlock (stream.length + bs.length) :=
      hone.writeVia hlen (by omega)
    rw [onMessage_data hone.valid hopen hne] at hr
    have hloop := serve_contiguous env (c := c.received bs) (Buffer.contiguous_oneBlock _) hone' hp
      (turnsLeft_lt_serveFuel _)
    rwa [hr] at hloop

/-- **Behind `kBlockSize` bytes nothing is read**: the buffer is never empty again. -/
theorem Served.jammed [HeadMemory] (h : Served env stream c exit)
    (hlen : kBlockSize < stream.length) :
    c.readBuf.Jammed ∧ c.readBuf.size ≠ 0 ∧
      (exit = .loopEnd → Sound c.parser ∧ c.Settled) := by
  induction h with
  | accept => exact absurd hlen (by simp)
  | @read stream bs c c' exit h hopen hne hroom hr ih =>
    rw [List.length_append] at hlen
    obtain ⟨hj, hp, hs⟩ : c.readBuf.Jammed ∧ Sound c.parser ∧ c.Settled := by
      rcases Nat.lt_or_ge kBlockSize stream.length with hlt | hle
      · obtain ⟨hj, -, hend⟩ := ih hlt
        exact ⟨hj, hend rfl⟩
      · obtain ⟨hone, hend⟩ := h.oneBlock hle
        rcases Nat.lt_or_ge stream.length kBlockSize with hlt | hge
        · rw [hone.room hlt] at hroom
          omega
        · rw [Nat.le_antisymm hle hge] at hone
          exact ⟨hone.jammed, hend rfl⟩
    obtain ⟨hj', hw⟩ := hj.writeVia hroom
    have hs' : (c.received bs).Settled := by
      unfold Settled at hs ⊢
      rw [show (c.received bs).readBuf.window = c.readBuf.window from hw]
      exact hs
    rw [onMessage_data hj.valid hopen hne] at hr
    obtain ⟨hbuf, hend⟩ := serve_settled env (c := c.received bs) hj'.valid hp
      (turnsLeft_lt_serveFuel _) hs'
    rw [hr] at hbuf hend
    rw [hbuf]
    refine ⟨hj', fun h0 => hne ?_, hend⟩
    have hnil := hj'.valid.size_eq_zero_iff.mp h0
    rw [hj.valid.content_writeVia hroom] at hnil
    exact (List.append_eq_nil_iff.mp hnil).2

theorem Served.valid [HeadMemory] (h : Served env stream c exit) :
    c.readBuf.Valid ∧ (exit = .loopEnd → Sound c.parser) := by
  rcases Nat.lt_or_ge kBlockSize stream.length with hlt | hle
  · obtain ⟨hj, -, hend⟩ := h.jammed hlt
    exact ⟨hj.valid, fun he => (hend he).1⟩
  · obtain ⟨hone, hend⟩ := h.oneBlock hle
    exact ⟨hone.valid, fun he => (hend he).1⟩

end Hound.Http
