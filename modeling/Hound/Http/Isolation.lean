import Hound.Http.ConnectionRuns
import Hound.Http.Transient

/-!
# Connections do not disturb each other

`reaches` says which events of the server reach the connection on an fd, and as what.
`isolated`: whatever goes on on other fds, the connection on an fd is in the state to which
`connMachine` is brought by its own events since it was accepted. So what is proved of the
runs of one connection holds of every connection of a server.
-/

namespace Hound.Http.HttpServer

open Lib Reactor

variable {H : Type} {s s' start : HttpServer H} {fd : Fd} {c : Session H} {e : ServerEvent H}

def isLive (s : HttpServer H) (fd : Fd) : Bool := (s.connections fd).any fun c => !c.closed

/-- What an event is for the connection on `fd`. -/
def reaches (s : HttpServer H) (fd : Fd) : ServerEvent H → Option (ConnEvent H)
  | .message fd' env r _ => if fd' = fd then some (.message env r) else none
  | .close fd' => if fd' = fd then some .close else none
  | .timeout timerId =>
    match s.wheel.pending.find? (·.id = timerId) with
    | some t => if t.callback.fd = fd then some .close else none
    | none => none
  | _ => none

/-- The events of the connection on `fd` behind `e`, when they were `past` before it. A new
connection has none, and a closed one takes no more. -/
def remembers (s : HttpServer H) (fd : Fd) (past : List (ConnEvent H)) (e : ServerEvent H) :
    List (ConnEvent H) :=
  match e with
  | .accept (some fd') _ => if fd' = fd then [] else past
  | e => if s.isLive fd then past ++ (s.reaches fd e).toList else past

/-- The events of the connection on `fd` along a run from `s`. -/
def history [HeadMemory] (start : HttpServer H) (fd : Fd) :
    HttpServer H → List (ConnEvent H) → List (ServerEvent H) → List (ConnEvent H)
  | _, past, [] => past
  | s, past, e :: events =>
    match (machine start).step s e with
    | none => past
    | some s' => history start fd s' (s.remembers fd past e) events

/-- A read on the open connection of `fd` returns no more than it was given room for, and what it
brings does not make `parse` throw, which ends the loop. -/
def Orderly (fd : Fd) (s : HttpServer H) : ServerEvent H → Prop
  | .message fd' env r _ => fd' = fd → ∀ c, s.connections fd = some c → c.closed = false →
      r.Fits c.readBuf ∧ ∀ e, (c.toConnection.onMessage env r).2 ≠ .threw e
  | _ => True

def after (c : Connection H) : ConnEvent H → Connection H
  | .message env r => (c.onMessage env r).1
  | .close => c.onClose

theorem isLive_of_open (hc : s.connections fd = some c) (hopen : c.closed = false) :
    s.isLive fd = true := by
  simp [isLive, hc, hopen]

theorem isLive_of_closed (hc : s.connections fd = some c) (hclosed : c.closed = true) :
    s.isLive fd = false := by
  simp [isLive, hc, hclosed]

theorem entry_onClose (hc : s.connections fd = some c) (hopen : c.closed = false) :
    (s.onClose fd).connections fd = some { c with toConnection := c.toConnection.onClose } := by
  unfold HttpServer.onClose
  rw [hc]
  simp only [hopen, Bool.false_eq_true, if_false]
  exact connections_put_self ..

theorem onClose_of_closed (hc : s.connections fd = some c) (hclosed : c.closed = true) :
    s.onClose fd = s := by
  unfold HttpServer.onClose
  rw [hc]
  exact if_pos hclosed

theorem onMessage_of_closed (hc : s.connections fd = some c) (hclosed : c.closed = true)
    (env : ServerEnv H) (r : ReadOutcome) (now : Timestamp) : s.onMessage fd env r now = s := by
  unfold HttpServer.onMessage
  rw [hc]
  exact if_pos hclosed

/-- `c` is what the event makes of the connection that was on `fd`. -/
def Carries (s : HttpServer H) (fd : Fd) (e : ServerEvent H) (c : Session H) : Prop :=
  ∃ d, s.connections fd = some d ∧ (∀ now, e ≠ .accept (some fd) now) ∧
    c.toConnection = if d.closed then d.toConnection
      else (s.reaches fd e).elim d.toConnection (after d.toConnection)

/-- The event does not reach the connection. -/
theorem carries_same (hc : s.connections fd = some c) (he : ∀ now, e ≠ .accept (some fd) now)
    (hreach : s.reaches fd e = none) : s.Carries fd e c :=
  ⟨c, hc, he, by rw [hreach]; split <;> rfl⟩

/-- It does, but the connection may be closed already. -/
theorem carries_own {d : Session H} {event : ConnEvent H} (hd : s.connections fd = some d)
    (hc : s'.connections fd = some c) (he : ∀ now, e ≠ .accept (some fd) now)
    (hreach : s.reaches fd e = some event) (hclosed : d.closed = true → s' = s)
    (hopen : d.closed = false → c.toConnection = after d.toConnection event) :
    s.Carries fd e c := by
  refine ⟨d, hd, he, ?_⟩
  cases hdc : d.closed with
  | true =>
    rw [hclosed hdc, hd, Option.some.injEq] at hc
    rw [hc]
    rfl
  | false =>
    rw [hreach]
    exact hopen hdc

/-- The entry of `fd` behind an event: a new connection, or what the event makes of the one that
was there. -/
theorem entry_event [HeadMemory] (hs : s.Inv) (h : (machine start).step s e = some s')
    (hc : s'.connections fd = some c) :
    (∃ now, e = .accept (some fd) now ∧ c.toConnection = {}) ∨ s.Carries fd e c := by
  cases e with
  | accept fd' now =>
    cases fd' with
    | none => cases h; exact .inr (carries_same hc (fun _ he => by cases he) rfl)
    | some fd' =>
      obtain ⟨-, h⟩ := Option.ite_none_left_eq_some.mp h
      rw [← Option.some.inj h] at hc
      by_cases hne : fd = fd'
      · subst hne
        rw [HttpServer.onAccept, HttpServer.refreshTimeout, connections_put_self] at hc
        exact .inl ⟨now, rfl, by rw [← Option.some.inj hc]⟩
      · refine .inr (carries_same ((connections_put_ne hne ..).symm.trans hc) ?_ rfl)
        rintro _ ⟨⟩
        exact hne rfl
  | message fd' env r now =>
    cases h
    by_cases hne : fd = fd'
    · subst hne
      cases hd : s.connections fd with
      | none => simp [HttpServer.onMessage, hd] at hc
      | some d =>
        refine .inr (carries_own hd hc (fun _ he => by cases he) (if_pos rfl)
          (fun hclosed => onMessage_of_closed hd hclosed env r now) fun hopen => ?_)
        obtain ⟨timer, hentry⟩ := entry_onMessage hd hopen env r now
        rw [hentry, Option.some.injEq] at hc
        rw [← hc]
        rfl
    · rw [connections_onMessage_ne hne] at hc
      exact .inr (carries_same hc (fun _ he => by cases he) (if_neg (Ne.symm hne)))
  | close fd' =>
    cases h
    by_cases hne : fd = fd'
    · subst hne
      cases hd : s.connections fd with
      | none => simp [HttpServer.onClose, hd] at hc
      | some d =>
        refine .inr (carries_own hd hc (fun _ he => by cases he) (if_pos rfl)
          (fun hclosed => onClose_of_closed hd hclosed) fun hopen => ?_)
        rw [entry_onClose hd hopen, Option.some.injEq] at hc
        rw [← hc]
        rfl
    · rw [connections_onClose_ne hne] at hc
      exact .inr (carries_same hc (fun _ he => by cases he) (if_neg (Ne.symm hne)))
  | timeout timerId =>
    simp only [machine] at h
    split at h
    · cases h
    · next t ht =>
      obtain ⟨d, hd, hobject, hopen, -⟩ := hs.timer t (List.mem_of_find?_eq_some ht)
      have hfires : s' = { s with wheel := s.wheel.cancel timerId }.onClose t.callback.fd := by
        rw [← Option.some.inj h]
        simp only [HttpServer.onTimeout, hd, if_pos hobject]
      rw [hfires] at hc
      by_cases hne : fd = t.callback.fd
      · subst hne
        have hreach : s.reaches t.callback.fd (.timeout timerId) = some .close := by
          simp only [reaches, ht, if_true]
        refine .inr (carries_own hd hc (fun _ he => by cases he) hreach (fun hclosed => ?_)
          fun _ => ?_)
        · rw [hopen] at hclosed
          cases hclosed
        · rw [entry_onClose (s := { s with wheel := s.wheel.cancel timerId }) hd hopen,
            Option.some.injEq] at hc
          rw [← hc]
          rfl
      · rw [connections_onClose_ne hne] at hc
        refine .inr (carries_same hc (fun _ he => by cases he) ?_)
        simp only [reaches, ht, if_neg (Ne.symm hne)]
  | task =>
    simp only [machine] at h
    split at h
    · cases h
    · next fd' tasks htasks =>
      cases h
      obtain ⟨d, hd, -⟩ := hs.queued.mp (htasks ▸ List.mem_cons_self)
      obtain ⟨hnone, hother, -⟩ := erase_spec (s := { s with tasks }) hd
      have hne : fd ≠ fd' := by
        rintro rfl
        rw [hnone] at hc
        cases hc
      rw [(hother fd hne).1] at hc
      exact .inr (carries_same hc (fun _ he => by cases he) rfl)
  | other fd' isOpen =>
    obtain ⟨-, h⟩ := Option.ite_none_right_eq_some.mp h
    rw [← Option.some.inj h] at hc
    exact .inr (carries_same hc (fun _ he => by cases he) rfl)

/-! ## Runs -/

/-- The connection on `fd` is where its own events have brought it, and `parse` has not thrown
if it is open. -/
def Alone [HeadMemory] (fd : Fd) (s : HttpServer H) (past : List (ConnEvent H)) : Prop :=
  ∀ c, s.connections fd = some c → ∃ exit, connMachine.run past = some (c.toConnection, exit) ∧
    (c.closed = false → ∀ e, exit ≠ .threw e)

theorem connMachine_after [HeadMemory] {c : Connection H} {exit : Exit}
    (hexit : ∀ e, exit ≠ .threw e)
    {ev : ConnEvent H} (hev : ∀ env r, ev = .message env r → r.Fits c.readBuf ∧
      ∀ e, (c.onMessage env r).2 ≠ .threw e) :
    ∃ exit', connMachine.step (c, exit) ev = some (after c ev, exit') ∧
      ∀ e, exit' ≠ .threw e := by
  cases exit with
  | threw e => exact absurd rfl (hexit e)
  | loopEnd | badRequest | closedFirst =>
    cases ev with
    | close => exact ⟨_, rfl, fun _ => nofun⟩
    | message env r =>
      obtain ⟨hfit, hno⟩ := hev env r rfl
      exact ⟨_, if_pos hfit, hno⟩

theorem alone_step [HeadMemory] {past : List (ConnEvent H)} (hs : s.Inv) (ha : Alone fd s past)
    (ho : Orderly fd s e) (h : (machine start).step s e = some s') :
    Alone fd s' (s.remembers fd past e) := by
  intro c hc
  rcases entry_event hs h hc with ⟨now, rfl, hnew⟩ | ⟨d, hd, hother, hsame⟩
  · rw [remembers, if_pos rfl, hnew]
    exact ⟨.loopEnd, rfl, fun _ => nofun⟩
  · obtain ⟨exit, hrun, hexit⟩ := ha d hd
    have hpast : s.remembers fd past e =
        if s.isLive fd then past ++ (s.reaches fd e).toList else past := by
      unfold remembers
      split
      · next fd' now =>
        rw [if_neg fun hfd => hother now (by rw [hfd])]
        cases s.isLive fd
        · rfl
        · exact (List.append_nil _).symm
      · rfl
    rw [hpast]
    cases hclosed : d.closed with
    | true =>
      rw [hclosed, if_pos rfl] at hsame
      rw [isLive_of_closed hd hclosed, if_neg Bool.false_ne_true, hsame]
      refine ⟨exit, hrun, fun hopen => ?_⟩
      rw [hclosed] at hopen
      cases hopen
    | false =>
      rw [hclosed, if_neg Bool.false_ne_true] at hsame
      rw [isLive_of_open hd hclosed, if_pos rfl, hsame]
      cases hev : s.reaches fd e with
      | none =>
        rw [Option.toList_none, List.append_nil]
        exact ⟨exit, hrun, fun _ => hexit hclosed⟩
      | some ev =>
        have hmessage : ∀ env r, ev = .message env r → r.Fits d.readBuf ∧
            ∀ e, (d.toConnection.onMessage env r).2 ≠ .threw e := by
          rintro env r rfl
          cases e with
          | message fd' env' r' now =>
            obtain ⟨hfd, hev⟩ := Option.ite_none_right_eq_some.mp hev
            cases hev
            exact ho hfd d hd hclosed
          | timeout timerId =>
            simp only [reaches] at hev
            split at hev
            · obtain ⟨-, hev⟩ := Option.ite_none_right_eq_some.mp hev
              cases hev
            · cases hev
          | close fd' =>
            obtain ⟨-, hev⟩ := Option.ite_none_right_eq_some.mp hev
            cases hev
          | accept | task | other => cases hev
        obtain ⟨exit', hstep, hexit'⟩ := connMachine_after (hexit hclosed) hmessage
        exact ⟨exit', Machine.run_concat hrun hstep, fun _ => hexit'⟩

theorem alone_run [HeadMemory] : ∀ {events : List (ServerEvent H)} {s : HttpServer H}
    {past : List (ConnEvent H)}, s.Inv → Alone fd s past →
    (machine start).EachFrom (Orderly fd) s events → (machine start).runFrom s events = some s' →
    Alone fd s' (history start fd s past events)
  | [], _, _, _, ha, _, h => by cases h; exact ha
  | e :: events, s, past, hs, ha, ho, h => by
    obtain ⟨s₁, h1, h2⟩ := Machine.runFrom_cons h
    rw [history, h1]
    exact alone_run (machine_kept hs h1) (alone_step hs ha ho.1 h1) (ho.2 s₁ h1) h2

/-- **Connections are isolated.** After any events since `start()`, in which the reads on `fd` are
orderly, the connection on `fd` is in the state that its own events, from its accept on,
bring a connection to by themselves. -/
theorem isolated [HeadMemory] (h0 : start.Started) {events : List (ServerEvent H)}
    (h : (machine start).run events = some s) (ho : (machine start).Each (Orderly fd) events)
    (hc : s.connections fd = some c) :
    ∃ exit, connMachine.run (history start fd start [] events) = some (c.toConnection, exit) := by
  have hnone : Alone fd start [] := fun c hc => by rw [h0.connections] at hc; cases hc
  obtain ⟨exit, hrun, -⟩ := alone_run h0.inv hnone ho h c hc
  exact ⟨exit, hrun⟩

/-- Two connections, of which the first is closed and its fd used again; each reads a part of a
request. -/
def interleaved : List (ServerEvent Unit) :=
  [.accept (some 5) ⟨0⟩, .accept (some 6) ⟨0⟩, .message 6 idleEnv (.data (bytes "GET")) ⟨1⟩,
    .close 5, .close 6, .task, .accept (some 5) ⟨7⟩,
    .message 5 idleEnv (.data (bytes "GET / ")) ⟨8⟩, .timeout 5]

theorem interleaved_orderly : (machine small).Each (Orderly 5) interleaved := by
  refine ⟨trivial, fun _ h₁ => ⟨trivial, fun _ h₂ => ⟨(fun hne => by cases hne), fun _ h₃ =>
    ⟨trivial, fun _ h₄ => ⟨trivial, fun _ h₅ => ⟨trivial, fun _ h₆ => ⟨trivial, fun _ h₇ =>
      ⟨?_, fun _ _ => ⟨trivial, fun _ _ => trivial⟩⟩⟩⟩⟩⟩⟩⟩⟩
  rintro - c hc -
  have hnew : c.toConnection = {} := by
    cases h₁
    cases h₂
    cases h₃
    cases h₄
    cases h₅
    cases h₆
    cases h₇
    cases hc
    rfl
  have hend : (({} : Connection Unit).onMessage idleEnv (.data (bytes "GET / "))).2 = .loopEnd := by
    decide +kernel
  rw [hnew]
  exact ⟨by decide +kernel, fun e he => by cases hend.symm.trans he⟩

theorem interleaved_isolated : ∃ s c exit, (machine small).run interleaved = some s ∧
    s.connections 5 = some c ∧
    connMachine.run (history small 5 small [] interleaved) = some (c.toConnection, exit) ∧
    (history small 5 small [] interleaved).length = 2 := by
  have h0 : small.Started := ⟨.new (by decide) _ _, rfl, fun _ => rfl, rfl, rfl⟩
  obtain ⟨s, h⟩ : ∃ s, (machine small).run interleaved = some s :=
    Option.isSome_iff_exists.mp (by decide +kernel)
  have hc : ((machine small).run interleaved).any (fun s => (s.connections 5).isSome) = true := by
    decide +kernel
  rw [h] at hc
  obtain ⟨c, hc⟩ := Option.isSome_iff_exists.mp hc
  obtain ⟨exit, hrun⟩ := isolated h0 h interleaved_orderly hc
  exact ⟨s, c, exit, h, hc, hrun, by decide +kernel⟩

end Hound.Http.HttpServer
