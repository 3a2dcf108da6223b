import Hound.Http.Lifecycle
import Hound.Http.Silence
import Hound.Io.Socket

/-!
# Errors that pass

`Socket::read` and `write` report `EAGAIN` and `EINTR` as errors, and `on_message` and
`send_response` ask only whether there is a value: a connection is closed on them as on
any other error. `Kept` is what an event owes an open connection. `kept_iff`: the event
gives it exactly when no call it makes on the connection fails for a passing reason
(`NoTransient`).
-/

namespace Hound.Http

open Lib Reactor Connection

variable {H : Type}

/-- What `on_message` makes of a `recv`. -/
def ReadOutcome.of (r : Recv) : ReadOutcome :=
  match Socket.read r.ret with
  | .error _ => .fail
  | .ok _ => .data r.bytes

theorem ReadOutcome.of_stored (bs : Bytes) : ReadOutcome.of (.stored bs) = .data bs := by
  have h : Socket.read (Recv.stored bs).ret = .ok bs.length :=
    Socket.read_of_nonneg (Int.natCast_nonneg bs.length)
  rw [ReadOutcome.of, h]
  rfl

theorem ReadOutcome.of_failed (errno : Errno) : ReadOutcome.of (.failed errno) = .fail := by
  obtain ⟨e, h⟩ := Socket.read_of_neg (r := (Recv.failed errno).ret)
    (show (-1 : Int) < 0 by decide)
  rw [ReadOutcome.of, h]

/-- `env` with a kernel under it: `os i raw` is what `send` returns. -/
def ServerEnv.over (env : ServerEnv H) (os : Nat → Bytes → SysReturn) : ServerEnv H :=
  { env with send := fun i raw => (Socket.write (os i raw)).toOption.map Int.toNat }

/-- The connection and the response that `send_response` is called with in a turn of the loop
that begins in `d` and in which `parse` leaves `p` and `buf`. -/
def sending (env : ServerEnv H) (d : Connection H) (p : HttpParser) (buf : Buffer) :
    Connection H × HttpResponse :=
  let d := d.parsed p buf
  if p.state = .error then (d, .notFound (bytes "400 Bad Request"))
  else (d.record (.handle p p.request (d.respond env p.request).1),
    (d.respond env p.request).2.setKeepAlive p.request.keepAlive)

/-- What `send` returns in that turn. -/
def sent (env : ServerEnv H) (os : Nat → Bytes → SysReturn) (d : Connection H) (p : HttpParser) :
    SysReturn :=
  let (e, resp) := sending env d p d.readBuf
  os e.turn (resp.serialize env.order)

/-- The events of a server, with what the kernel returns. -/
inductive IoEvent (H : Type) where
  | accept (fd : Option Fd) (now : Timestamp)
  | message (fd : Fd) (env : ServerEnv H) (os : Nat → Bytes → SysReturn) (r : Recv)
      (now : Timestamp)
  | close (fd : Fd)
  | timeout (timerId : Int)
  | task
  | other (fd : Fd) (isOpen : Bool)

def IoEvent.seen : IoEvent H → ServerEvent H
  | .accept fd now => .accept fd now
  | .message fd env os r now => .message fd (env.over os) (.of r) now
  | .close fd => .close fd
  | .timeout timerId => .timeout timerId
  | .task => .task
  | .other fd isOpen => .other fd isOpen

/-- A read on `fd` returns no more than its buffer has room for. -/
def IoEvent.Fits (fd : Fd) (b : Buffer) : IoEvent H → Prop
  | .message fd' _ _ r _ => fd' = fd → (ReadOutcome.of r).Fits b
  | _ => True

namespace HttpServer

/-- Why a turn may close the connection: a parse error, a request that asks for it, or a
`send` that failed for good. -/
def TurnCause (os : Nat → Bytes → SysReturn) (env : ServerEnv H) (d : Connection H)
    (p : HttpParser) : Prop :=
  p.state = .error ∨ p.request.keepAlive = false ∨
    ((sent env os d p).ret ≤ 0 ∧ ¬ (sent env os d p).errno.Transient)

/-- Why an event may close the open connection `c` on `fd`: the end of the stream, a `recv` that
failed for good or the cause of a turn; its own idle timeout; or the close or error callback
of its channel. -/
def Cause (fd : Fd) (c : Session H) : IoEvent H → Prop
  | .message fd' env os r _ => fd' = fd ∧
      match r with
      | .failed errno => ¬ errno.Transient
      | .stored bs => bs = [] ∨ ∃ d p, Turns (env.over os) (c.received bs) d ∧ d.Answers p ∧
          d.closed = false ∧ TurnCause os (env.over os) d p
  | .timeout timerId => timerId = c.timeoutTimer
  | .close fd' => fd' = fd
  | .accept .. | .task | .other .. => False

/-- What the event owes the open connection `c` on `fd`. -/
structure Kept (fd : Fd) (c : Session H) (e : IoEvent H)
    (s' : HttpServer H) : Prop where
  /-- A `recv` that would block leaves the entry, the parser and the buffer. -/
  read : ∀ env os errno now, e = .message fd env os (.failed errno) now → errno.Transient →
    ∃ c', s'.connections fd = some c' ∧ c'.closed = false ∧ c'.parser = c.parser ∧
      c'.readBuf.content = c.readBuf.content
  /-- A `send` that would block leaves the connection open. -/
  send : ∀ env os bs now, e = .message fd env os (.stored bs) now → bs ≠ [] →
    AllTurns (env.over os) (fun env d p => ∀ buf, d.closed = false →
      (sent env os d p).WouldBlock →
      ((sending env d p buf).1.sendResponse env (sending env d p buf).2).closed = false)
      (c.received bs)
  /-- It is closed for a cause only. -/
  cause : (¬ ∃ c', s'.connections fd = some c' ∧ c'.closed = false) → Cause fd c e

/-- No call that the event makes on the open connection `c` fails for a passing reason. -/
def NoTransient (fd : Fd) (c : Session H) : IoEvent H → Prop
  | .message fd' env os r _ => fd' = fd →
      match r with
      | .failed errno => ¬ errno.Transient
      | .stored bs => bs ≠ [] → AllTurns (env.over os)
          (fun env d p => d.closed = false → ¬ (sent env os d p).WouldBlock) (c.received bs)
  | _ => True

/-! ## One turn -/

variable {env : ServerEnv H} {os : Nat → Bytes → SysReturn} {c d : Connection H} {p : HttpParser}

theorem over_send (env : ServerEnv H) (os : Nat → Bytes → SysReturn) (i : Nat) (raw : Bytes) :
    (env.over os).send i raw = none ↔ (os i raw).ret ≤ 0 := by
  rw [← Socket.write_toOption_eq_none]
  exact Option.map_eq_none_iff

/-- A turn on an open connection loses it in `send_response` exactly when no byte is taken. -/
theorem closed_sending (hopen : d.closed = false) (buf : Buffer) :
    ((sending (env.over os) d p buf).1.sendResponse (env.over os)
      (sending (env.over os) d p buf).2).closed = true ↔
        (sent (env.over os) os d p).ret ≤ 0 := by
  rw [closed_sendResponse, over_send]
  unfold sent sending
  split
  · exact or_iff_right (Bool.eq_false_iff.mp hopen)
  · exact or_iff_right (Bool.eq_false_iff.mp hopen)

theorem reply_eq_none : ((d.reply (env.over os) p).2 = none) ↔
    (sent (env.over os) os d p).ret ≤ 0 := by
  unfold reply sent sending
  split
  · exact over_send env os _ _
  · simp only [turn_record]
    exact over_send env os _ _

/-- The loop closes an open connection in some turn that has a cause or would block. -/
theorem closed_turn {fuel : Nat} (hv : c.readBuf.Valid) (hs : Sound c.parser)
    (hf : turnsLeft c < fuel) (hopen : c.closed = false)
    (hclosed : (c.serveLoop (env.over os) fuel).1.closed = true) :
    ∃ d p, Turns (env.over os) c d ∧ d.Answers p ∧ d.closed = false ∧
      (TurnCause os (env.over os) d p ∨ (sent (env.over os) os d p).WouldBlock) := by
  refine serve_induction (motive := fun c r => c.closed = false → r.1.closed = true →
    ∃ d p, Turns (env.over os) c d ∧ d.Answers p ∧ d.closed = false ∧
      (TurnCause os (env.over os) d p ∨ (sent (env.over os) os d p).WouldBlock))
    ?empty ?threw ?bad ?wait ?done ?more hv hs hf hopen hclosed
  case empty =>
    intro c _ _ _ hopen hclosed
    exact absurd hclosed (Bool.eq_false_iff.mp hopen)
  case threw =>
    intro c e _ _ _ _ hopen hclosed
    exact absurd hclosed (Bool.eq_false_iff.mp hopen)
  case bad =>
    intro c p buf k _ _ h0 hr he hopen _
    exact ⟨c, p, .here c, ⟨h0, .inl he, buf, k, hr⟩, hopen, .inl (.inl he)⟩
  case wait =>
    intro c p buf _ _ _ _ _ _ hopen hclosed
    exact absurd hclosed (Bool.eq_false_iff.mp hopen)
  case done =>
    intro c p buf k r _ _ h0 hr hd ih hopen hclosed
    cases hc : (c.complete (env.over os) p buf).closed with
    | false =>
      obtain ⟨d, q, hturns, h⟩ := ih hc hclosed
      exact ⟨d, q, .done h0 hr hd hturns, h⟩
    | true =>
      refine ⟨c, p, .here c, ⟨h0, .inr hd, buf, k, hr⟩, hopen, ?_⟩
      have hcloses := ((closed_complete c hd buf).mp hc).resolve_left (Bool.eq_false_iff.mp hopen)
      rcases hcloses with hnone | hkeep
      · have hret := reply_eq_none.mp hnone
        by_cases ht : (sent (env.over os) os c p).errno.Transient
        · exact .inr ⟨hret, ht⟩
        · exact .inl (.inr (.inr ⟨hret, ht⟩))
      · exact .inl (.inr (.inl hkeep))
  case more =>
    intro c p buf k r _ _ h0 hr hk he hd ih hopen hclosed
    obtain ⟨d, q, hturns, h⟩ := ih hopen hclosed
    exact ⟨d, q, .more h0 hr hk he hd hturns, h⟩

/-! ## One event -/

section Server

variable {s s' start : HttpServer H} {fd : Fd} {c : Session H} {e : IoEvent H}

/-- `on_message` on an open connection leaves its entry with what `Connection.onMessage` makes of
it. -/
theorem entry_onMessage (hc : s.connections fd = some c) (hopen : c.closed = false)
    (env : ServerEnv H) (r : ReadOutcome) (now : Timestamp) :
    ∃ timer, (s.onMessage fd env r now).connections fd =
      some { c with
        toConnection := (c.toConnection.onMessage env r).1
        timeoutTimer := timer } := by
  unfold HttpServer.onMessage
  rw [hc]
  simp only [hopen, Bool.false_eq_true, if_false]
  split <;> split <;> exact ⟨_, connections_put_self ..⟩

theorem connections_onMessage_ne {fd' : Fd} (hne : fd ≠ fd') (s : HttpServer H)
    (env : ServerEnv H) (r : ReadOutcome) (now : Timestamp) :
    (s.onMessage fd' env r now).connections fd = s.connections fd := by
  unfold HttpServer.onMessage
  cases s.connections fd' with
  | none => rfl
  | some d =>
    simp only
    split
    · rfl
    · have hrefresh : (s.refreshTimeout fd' d now).1.connections fd = s.connections fd :=
        connections_put_ne hne ..
      split <;> split
      · exact (connections_put_ne hne ..).trans hrefresh
      · exact (connections_put_ne hne ..).trans hrefresh
      · exact connections_put_ne hne ..
      · exact connections_put_ne hne ..

theorem connections_onClose_ne {fd' : Fd} (hne : fd ≠ fd') (s : HttpServer H) :
    (s.onClose fd').connections fd = s.connections fd := by
  unfold HttpServer.onClose
  cases s.connections fd' with
  | none => rfl
  | some d =>
    simp only
    split
    · rfl
    · exact connections_put_ne hne ..

theorem entry_step [HeadMemory] (hs : s.Inv) (hc : s.connections fd = some c)
    (hopen : c.closed = false)
    (h : (machine start).step s e.seen = some s') :
    (∃ env os r now, e = .message fd env os r now) ∨ e = .close fd ∨
      e = .timeout c.timeoutTimer ∨ s'.connections fd = some c := by
  cases e with
  | accept fd' now =>
    cases fd' with
    | none => cases h; exact .inr (.inr (.inr hc))
    | some fd' =>
      obtain ⟨hfree, h⟩ := Option.ite_none_left_eq_some.mp h
      have hne : fd ≠ fd' := fun he => hfree (he ▸ hs.isOpen hc)
      rw [← Option.some.inj h]
      exact .inr (.inr (.inr ((connections_put_ne hne ..).trans hc)))
  | message fd' env os r now =>
    by_cases hne : fd = fd'
    · exact .inl ⟨env, os, r, now, by rw [hne]⟩
    · cases h
      exact .inr (.inr (.inr ((connections_onMessage_ne hne ..).trans hc)))
  | close fd' =>
    by_cases hne : fd = fd'
    · exact .inr (.inl (by rw [hne]))
    · cases h
      exact .inr (.inr (.inr ((connections_onClose_ne hne s).trans hc)))
  | timeout timerId =>
    simp only [IoEvent.seen, machine] at h
    split at h
    · cases h
    · next t ht =>
      have hid : t.id = timerId := by simpa using List.find?_some ht
      have hmem := List.mem_of_find?_eq_some ht
      cases h
      by_cases hfd : t.callback.fd = fd
      · have htimer := (hs.timer_iff hc hopen hmem).mp hfd
        exact .inr (.inr (.inl (by rw [← htimer, hid])))
      · refine .inr (.inr (.inr ?_))
        unfold HttpServer.onTimeout
        split
        · split
          · exact (connections_onClose_ne (Ne.symm hfd) _).trans hc
          · exact hc
        · exact hc
  | task =>
    simp only [IoEvent.seen, machine] at h
    split at h
    · cases h
    · next fd' tasks htasks =>
      cases h
      obtain ⟨d, hd, hclosed⟩ := hs.queued.mp (htasks ▸ List.mem_cons_self)
      have hne : fd ≠ fd' := by
        rintro rfl
        rw [hc, Option.some.injEq] at hd
        rw [hd, hclosed] at hopen
        cases hopen
      obtain ⟨-, hother, -⟩ := erase_spec (s := { s with tasks }) hd
      exact .inr (.inr (.inr ((hother fd hne).1.trans hc)))
  | other fd' isOpen =>
    obtain ⟨-, h⟩ := Option.ite_none_right_eq_some.mp h
    rw [← Option.some.inj h]
    exact .inr (.inr (.inr hc))

theorem onMessage_failed {c : Connection H} (hopen : c.closed = false) (env : ServerEnv H)
    (errno : Errno) : (c.onMessage env (.of (.failed errno))).1.closed = true := by
  rw [ReadOutcome.of_failed, onMessage_nothing hopen fun _ h => by cases h]
  exact closed_onClose _

/-- A read that succeeds closes it at the end of the stream, or in a turn with a cause or one
that would block. -/
theorem onMessage_stored {c : Connection H} (hv : c.readBuf.Valid) (hp : Sound c.parser)
    (hopen : c.closed = false) {bs : Bytes} (hfit : bs.length ≤ c.readBuf.room) (hne : bs ≠ [])
    (hclosed : (c.onMessage (env.over os) (.of (.stored bs))).1.closed = true) :
    ∃ d p, Turns (env.over os) (c.received bs) d ∧ d.Answers p ∧ d.closed = false ∧
      (TurnCause os (env.over os) d p ∨ (sent (env.over os) os d p).WouldBlock) := by
  rw [ReadOutcome.of_stored, onMessage_data hv hopen hne] at hclosed
  exact closed_turn (c := c.received bs) (hv.writeVia hfit) hp (turnsLeft_lt_serveFuel _) hopen
    hclosed

/-- **Connections outlive errors that pass exactly when there are none.** -/
theorem kept_iff [HeadMemory] (hs : s.Inv) (hc : s.connections fd = some c)
    (hopen : c.closed = false)
    (hv : c.readBuf.Valid) (hp : Sound c.parser) (hfit : e.Fits fd c.readBuf)
    (h : (machine start).step s e.seen = some s') : Kept fd c e s' ↔ NoTransient fd c e := by
  constructor
  · intro hk
    cases e with
    | accept | close | timeout | task | other => trivial
    | message fd' env os r now =>
      rintro rfl
      cases h
      cases r with
      | failed errno =>
        intro ht
        obtain ⟨c', hc', hopen', -⟩ := hk.read env os errno now rfl ht
        obtain ⟨timer, hentry⟩ := entry_onMessage hc hopen (env.over os) (.of (.failed errno)) now
        rw [hentry, Option.some.injEq] at hc'
        have hclosed := onMessage_failed hopen (env.over os) errno
        rw [← hc'] at hopen'
        exact absurd hclosed (Bool.eq_false_iff.mp hopen')
      | stored bs =>
        intro hne d p hturns ha hdopen hblock
        have hkeep := hk.send env os bs now rfl hne d p hturns ha d.readBuf hdopen hblock
        exact absurd ((closed_sending hdopen d.readBuf).mpr hblock.1)
          (Bool.eq_false_iff.mp hkeep)
  · intro hno
    refine ⟨?_, ?_, fun hlost => ?_⟩
    · rintro env os errno now rfl ht
      exact absurd ht (hno rfl)
    · rintro env os bs now rfl hne d p hturns ha - hdopen hblock
      exact absurd hblock (hno rfl hne d p hturns ha hdopen)
    · rcases entry_step hs hc hopen h with ⟨env, os, r, now, rfl⟩ | rfl | rfl | hsame
      · refine ⟨rfl, ?_⟩
        cases h
        obtain ⟨timer, hentry⟩ := entry_onMessage hc hopen (env.over os) (.of r) now
        have hclosed : (c.toConnection.onMessage (env.over os) (.of r)).1.closed = true :=
          Bool.not_eq_false _ ▸ fun hf => hlost ⟨_, hentry, hf⟩
        cases r with
        | failed errno => exact hno rfl
        | stored bs =>
          by_cases hne : bs = []
          · exact .inl hne
          · have hroom : bs.length ≤ c.readBuf.room := by
              have := hfit rfl
              rwa [ReadOutcome.of_stored] at this
            obtain ⟨d, p, hturns, ha, hdopen, hcause⟩ :=
              onMessage_stored hv hp hopen hroom hne hclosed
            refine .inr ⟨d, p, hturns, ha, hdopen, hcause.resolve_right fun hblock => ?_⟩
            exact hno rfl hne d p hturns ha hdopen hblock
      · rfl
      · rfl
      · exact absurd ⟨c, hsame, hopen⟩ hlost

end Server

def accepted : HttpServer Unit := small.onAccept 5 ⟨0⟩

def acceptedSession : Session Unit := { object := 1, timeoutTimer := 1 }

theorem accepted_inv : accepted.Inv :=
  Inv.onAccept (s := small) ⟨.new (by decide) _ _, by simp [small], nofun, by simp [small],
    List.nodup_nil, nofun, rfl⟩ rfl ⟨0⟩

/-- `poll` reports the connection readable, and `recv` has nothing after all. -/
def spurious : IoEvent Unit := .message 5 idleEnv (fun _ _ => ⟨1, .other 0⟩) (.failed .eagain) ⟨0⟩

theorem spurious_kept_iff :
    Kept 5 acceptedSession spurious (((machine small).step accepted spurious.seen).getD small) ↔
      NoTransient 5 acceptedSession spurious :=
  kept_iff accepted_inv rfl rfl Buffer.valid_new sound_new (fun _ => trivial)
    (show (machine small).step accepted spurious.seen = some _ from rfl)

/-- The connection is closed and its erase queued. -/
theorem spurious_closes :
    (((machine small).step accepted spurious.seen).map (·.tasks)) = some [5] ∧
    ∀ s', (machine small).step accepted spurious.seen = some s' →
      ¬ Kept 5 acceptedSession spurious s' := by
  refine ⟨rfl, fun s' h hk => ?_⟩
  obtain ⟨c', hc', hopen, -⟩ := hk.read idleEnv _ .eagain ⟨0⟩ rfl trivial
  cases h
  have hc : some c'.closed = some true :=
    congrArg (Option.map fun c : Session Unit => c.closed) hc'.symm
  rw [hopen] at hc
  cases hc

end HttpServer

end Hound.Http
