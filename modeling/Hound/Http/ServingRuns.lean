import Hound.Http.Shutdown

/-!
# The loop of a server, event by event

Every event keeps `Serving.Inv`, and `Paced`, which is about the order of things in an iteration:
the channels still to be called were there when it polled, and the erases queued in an
iteration have all run at its end. `Safe` asks for more: no destroyed channel has been used
or is still to be called. Only a `stop` can lose it (`next_spec`), and one from a handler does.
-/

namespace Hound.Http

open Lib Reactor PollState

variable {H : Type}

namespace Serving

variable {s s' : Serving H} {fd : Fd} {c : Nat} {e : LoopEvent H}

structure Paced (s : Serving H) : Prop where
  fresh : ∀ c ∈ s.stage.active, c < s.poll.heap.length
  /-- The erases of a server that was stopped meet no connection of the next one. -/
  stale : s.stale ≠ [] → (∀ fd, s.server.connections fd = none) ∧
    ∀ l, s.listening = some l → l.2 ∉ s.stage.active
  idle : s.stage = .idle → s.queue = []
  tasks : ∀ n, s.stage = .tasks n → s.queue.length = n

/-- No destroyed channel has been used or is among the active ones. -/
def Safe (s : Serving H) : Prop :=
  s.broken = false ∧ ∀ c ∈ s.stage.active, (s.poll.deref c).isSome

/-- No handler calls `stop`, and one during the dispatch finds no channel but the wakeup one still
to be called. -/
def Spares (s : Serving H) : LoopEvent H → Prop
  | .stop _ => s.listening.isSome → ∀ c ∈ s.stage.active, c = 0
  | .stopIn _ _ => False
  | _ => True

theorem Inv.progress (hs : s.Inv) (stage : Stage) (stale : List Fd) (broken : Bool) :
    Inv { s with stage, stale, broken } :=
  ⟨hs.server, hs.represents, hs.owner, hs.apart, hs.reserved, hs.nodup, hs.fds⟩

/-! ## Callbacks -/

/-- From `s` to `s'` no channel is destroyed. -/
structure Grows (s s' : Serving H) : Prop extends Beside s s' where
  length : s.poll.heap.length ≤ s'.poll.heap.length
  live : ∀ d, (s.poll.deref d).isSome → (s'.poll.deref d).isSome

theorem Keeps.grows (h : Keeps s s') : Grows s s' :=
  ⟨h.toBeside, h.length.ge, fun d hd => (h.live d).trans hd⟩

theorem Grows.refl (s : Serving H) : Grows s s := (Keeps.refl s).grows

theorem live_watch (poll : PollState) (fd : Int) (d : Nat) (hd : (poll.deref d).isSome) :
    (((poll.construct fd).enableReading poll.heap.length { fd }).deref d).isSome := by
  obtain ⟨ch, hch⟩ := Option.isSome_iff_exists.mp hd
  rw [deref_watch poll fd (Nat.ne_of_lt (lt_of_deref hch))]
  exact hd

theorem grows_onAccept [HeadMemory] (s : Serving H) (out : Outside H) :
    Grows s (s.onAccept out) := by
  unfold onAccept
  cases out.accepted with
  | none => exact .refl s
  | some fd =>
    refine ⟨⟨rfl, rfl, rfl, rfl, rfl⟩, ?_, fun d hd => live_watch s.poll fd d hd⟩
    have hlength := length_construct s.poll fd
    simp only [watch, hlength]
    omega

theorem Inv.callbacks [HeadMemory] (out : Outside H) (fd : Fd) :
    ∀ (cbs : List Callback) {s : Serving H},
    s.Inv → (cbs.foldl (callback out (.connection fd)) s).Inv ∧
      Keeps s (cbs.foldl (callback out (.connection fd)) s)
  | [], s, hs => ⟨hs, .refl s⟩
  | cb :: cbs, s, hs => by
    have hcb : (callback out (.connection fd) s cb).Inv ∧
        Keeps s (callback out (.connection fd) s cb) := by
      cases cb with
      | read => exact hs.onMessage fd out
      | error | close => exact hs.onClose fd
      | write => exact ⟨hs, .refl s⟩
    obtain ⟨h, hkeeps⟩ := Inv.callbacks out fd cbs hcb.1
    exact ⟨h, hcb.2.trans hkeeps⟩

theorem callbacks_other [HeadMemory] (out : Outside H) {owner : Owner}
    (ho : ∀ fd, owner ≠ .connection fd)
    (s : Serving H) (ch : Channel) :
    (ch.handleEvent none).foldl (callback out owner) s = s ∨ (owner = .listener ∧
      (ch.handleEvent none).foldl (callback out owner) s = s.onAccept out) := by
  cases owner with
  | connection fd => exact absurd rfl (ho fd)
  | wakeup =>
    refine .inl ?_
    unfold Channel.handleEvent
    rw [if_neg nofun]
    split_ifs <;> rfl
  | listener =>
    unfold Channel.handleEvent
    rw [if_neg nofun]
    split_ifs <;> first | exact .inl rfl | exact .inr ⟨rfl, rfl⟩

/-- What the callbacks of a live channel come to: they leave the other channels and connections
alone, or are an `on_accept`. -/
theorem Inv.handle_cases [HeadMemory] (hs : s.Inv) {ch : Channel} (hch : s.poll.deref c = some ch)
    (out : Outside H) :
    ((s.handle c out).Inv ∧ Keeps s (s.handle c out)) ∨
      (s.handle c out = s.onAccept out ∧ ∃ fd, s.listening = some (fd, c)) := by
  have ht := hs.represents.of_deref hch
  have howner := hs.owner ht
  have hhandle : s.handle c out = (ch.handleEvent none).foldl (callback out (s.owner c)) s := by
    unfold Serving.handle
    rw [hch]
  by_cases hr : s.Reserved ch.fd
  · have hother : ∀ fd, s.owner c ≠ .connection fd := by
      intro fd
      rw [howner, ownerOf]
      rcases hr with hw | hl
      · rw [if_pos hw]
        exact fun he => by cases he
      · rw [if_pos hl]
        split <;> exact fun he => by cases he
    rcases callbacks_other out hother s ch with hsame | ⟨hlistener, haccept⟩
    · rw [hhandle, hsame]
      exact .inl ⟨hs, .refl s⟩
    · refine .inr ⟨hhandle.trans haccept, ?_⟩
      rcases hs.table_cases ht with ⟨hw, -⟩ | hl | ⟨hsome, -⟩
      · rw [howner, ownerOf, if_pos hw] at hlistener
        cases hlistener
      · exact ⟨ch.fd, hl⟩
      · exact absurd (hs.reserved hr).1 hsome
  · rw [hhandle, howner, ownerOf_of_not_reserved hr]
    exact .inl (Inv.callbacks out ch.fd (ch.handleEvent none) hs)

theorem Inv.handle [HeadMemory] (hs : s.Inv) {ch : Channel} (hch : s.poll.deref c = some ch)
    {out : Outside H} (hfree : ∀ fd ∈ out.accepted, s.server.isOpen fd = false) :
    (s.handle c out).Inv ∧ Grows s (s.handle c out) ∧
      ((∀ fd, (s.handle c out).server.connections fd = none ↔ s.server.connections fd = none) ∨
        ∃ fd, s.listening = some (fd, c)) := by
  rcases hs.handle_cases hch out with ⟨hinv, hkeeps⟩ | ⟨haccept, hl⟩
  · exact ⟨hinv, hkeeps.grows, .inl hkeeps.connections⟩
  · rw [haccept]
    exact ⟨(hs.onAccept hfree).1, grows_onAccept s out, .inr hl⟩

end Serving

theorem HttpServer.Inv.openAs {s : HttpServer H} (hs : s.Inv) {fd : Fd}
    (hnone : s.connections fd = none) (isOpen : Bool) :
    HttpServer.Inv { s with isOpen := Function.update s.isOpen fd isOpen } := by
  refine ⟨hs.wheel, hs.timer, hs.live, hs.queued, hs.nodup, fun {fd' d} hd => ?_, hs.dangling⟩
  have hne : fd' ≠ fd := by
    rintro rfl
    rw [hnone] at hd
    cases hd
  simp only [Function.update_of_ne hne]
  exact hs.isOpen hd

/-- The server without the timer, which leaves its bucket before its callback runs. -/
def HttpServer.taken (server : HttpServer H) (timerId : Int) : HttpServer H :=
  { server with wheel := server.wheel.cancel timerId }

namespace Serving

variable {s s' : Serving H} {fd : Fd} {c : Nat} {e : LoopEvent H}

theorem Inv.timeout (hs : s.Inv) {t : Timer Timeout} (ht : t ∈ s.server.wheel.pending) :
    (onTimeout { s with server := s.server.taken t.id } t.callback).Inv ∧
      Keeps s (onTimeout { s with server := s.server.taken t.id } t.callback) ∧
      (onTimeout { s with server := s.server.taken t.id } t.callback).server =
        (s.server.taken t.id).onTimeout t.callback := by
  obtain ⟨d, hd, ho, hopen, -⟩ := hs.server.timer t ht
  have hentry : (s.server.taken t.id).connections t.callback.fd = some d := hd
  have hlive : (s.server.taken t.id).isLive t.callback.fd = true :=
    HttpServer.isLive_of_open hentry hopen
  have hserver : (s.server.taken t.id).onTimeout t.callback =
      (s.server.taken t.id).onClose t.callback.fd := by
    unfold HttpServer.onTimeout
    rw [hentry]
    exact if_pos ho
  have hsame : onTimeout { s with server := s.server.taken t.id } t.callback =
      { s with server := (s.server.taken t.id).onClose t.callback.fd }.disable
        (s.channel t.callback.fd) := by
    unfold Serving.onTimeout
    simp only [hentry]
    rw [if_pos ho]
    exact if_pos hlive
  have hinv : ((s.server.taken t.id).onTimeout t.callback).Inv := hs.server.timeout ht
  rw [hserver] at hinv ⊢
  rw [hsame]
  exact hs.close hlive hinv (HttpServer.isOpen_onClose ..) (HttpServer.closedAt_onClose hlive)

/-! ## Starting -/

theorem start_eq (hl : s.listening = none) (fd : Fd) : s.start fd = watch { s with
    server := { s.server with isOpen := Function.update s.server.isOpen fd true }
    listening := some (fd, s.poll.heap.length) } fd .listener := by
  unfold start
  rw [hl]
  rfl

theorem start_running {l : Fd × Nat} (hl : s.listening = some l) (fd : Fd) : s.start fd = s := by
  unfold start
  rw [hl]
  rfl

theorem stop_idle (hl : s.listening = none) (order : List Fd) : s.stop order = s := by
  unfold stop
  rw [hl]

theorem handle_dead [HeadMemory] (hch : s.poll.deref c = none) (out : Outside H) :
    s.handle c out = { s with broken := true } := by
  unfold handle
  rw [hch]

theorem table_start (hs : s.Inv) (hl : s.listening = none) (hfd : s.server.isOpen fd = false) :
    (s.start fd).table =
      Function.update s.table fd (some (s.poll.heap.length, kReadEvent)) := by
  have hne : fd ≠ s.wakeupFd := by
    rintro rfl
    rw [(hs.reserved (.inl rfl)).2] at hfd
    cases hfd
  rw [start_eq hl]
  funext fd'
  unfold table
  simp only [watch, hl, Option.map_some, Option.map_none, Option.some.injEq]
  by_cases hfd' : fd' = fd
  · rw [hfd', Function.update_self, if_neg hne, if_pos rfl]
  · rw [Function.update_of_ne hfd', if_neg (Ne.symm hfd')]
    simp only [reduceCtorEq, if_false]
    rfl

theorem Inv.start (hs : s.Inv) (hfd : s.server.isOpen fd = false) : (s.start fd).Inv := by
  cases hl : s.listening with
  | some l =>
    rw [start_running hl]
    exact hs
  | none =>
    have htable := table_start hs hl hfd
    obtain ⟨hfree, -⟩ := hs.table_free hfd
    have hnone := (hs.server.free hfd).1
    have hne : fd ≠ s.wakeupFd := by
      rintro rfl
      rw [(hs.reserved (.inl rfl)).2] at hfd
      cases hfd
    have hlistening : (s.start fd).listening.map Prod.fst = some fd := by
      rw [start_eq hl]
      rfl
    have hwakeup : (s.start fd).wakeupFd = s.wakeupFd := by
      rw [start_eq hl]
      rfl
    constructor
    case server =>
      rw [start_eq hl]
      exact hs.server.openAs hnone true
    case represents =>
      rw [htable, start_eq hl]
      exact hs.represents.construct hfree
    case owner =>
      intro fd' d events ht
      rw [htable] at ht
      rw [ownerOf, hwakeup, hlistening]
      by_cases hfd' : fd' = fd
      · subst hfd'
        rw [Function.update_self, Option.some.injEq, Prod.mk.injEq] at ht
        rw [if_neg hne, if_pos rfl, ← ht.1, start_eq hl]
        exact Function.update_self ..
      · rw [Function.update_of_ne hfd'] at ht
        have howner := hs.owner ht
        rw [ownerOf, hl, Option.map_none, if_neg (Option.some_ne_none fd').symm] at howner
        rw [if_neg (show some fd ≠ some fd' from fun h => hfd' (Option.some.inj h).symm),
          ← howner, start_eq hl]
        exact Function.update_of_ne (Nat.ne_of_lt (hs.lt_length ht)) ..
    case apart =>
      rw [hlistening, hwakeup]
      exact fun h => hne (Option.some.inj h)
    case reserved =>
      intro fd' hr
      rw [Reserved, hwakeup, hlistening] at hr
      rw [start_eq hl]
      by_cases hfd' : fd' = fd
      · rw [hfd']
        exact ⟨hnone, Function.update_self ..⟩
      · have hw := hr.resolve_right fun h => hfd' (Option.some.inj h).symm
        obtain ⟨hnone', hopen'⟩ := hs.reserved (.inl hw)
        exact ⟨hnone', (Function.update_of_ne hfd' ..).trans hopen'⟩
    case nodup =>
      rw [start_eq hl]
      exact hs.nodup
    case fds =>
      rw [start_eq hl]
      exact hs.fds

/-! ## What an event can do -/

theorem next_poll [HeadMemory] {select : Int → FdSets → FdSets × Int}
    (h : s.next (.poll select) = some s') : s.stage = .idle ∧
      ((s.poll.poll select = none ∧ s' = { s with broken := true }) ∨
        ∃ poll active, s.poll.poll select = some (poll, active) ∧
          s' = { s with poll, stage := .dispatch active }) := by
  simp only [next] at h
  split at h
  · next hstage =>
    split at h
    · next hpoll =>
      cases h
      exact ⟨hstage, .inl ⟨hpoll, rfl⟩⟩
    · next poll active hpoll =>
      cases h
      exact ⟨hstage, .inr ⟨poll, active, hpoll, rfl⟩⟩
  · cases h

theorem next_handle [HeadMemory] {out : Outside H} (h : s.next (.handle out) = some s') :
    ∃ c active, s.stage = .dispatch (c :: active) ∧
      (∀ fd ∈ out.accepted, s.server.isOpen fd = false) ∧
      s' = handle { s with stage := .dispatch active } c out := by
  simp only [next] at h
  split at h
  · next c active hstage =>
    obtain ⟨hfree, h⟩ := Option.ite_none_right_eq_some.mp h
    exact ⟨c, active, hstage, hfree, (Option.some.inj h).symm⟩
  · cases h

theorem next_stopIn [HeadMemory] {out : Outside H} {order : List Fd}
    (h : s.next (.stopIn out order) = some s') :
    ∃ c active, s.stage = .dispatch (c :: active) ∧ order.Perm s.fds ∧
      s' = { stop { s with stage := .dispatch active } order with broken := true } := by
  simp only [next] at h
  split at h
  · next c active hstage =>
    obtain ⟨⟨-, -, ho⟩, h⟩ := Option.ite_none_right_eq_some.mp h
    exact ⟨c, active, hstage, ho, (Option.some.inj h).symm⟩
  · cases h

/-- The events between which the loop goes from one stage to the next. -/
theorem next_stage [HeadMemory] (he : e = .dispatched ∨ e = .ticked ∨ e = .iterated)
    (h : s.next e = some s') :
    ∃ stage, s' = { s with stage } ∧ stage.active = [] ∧
      (stage = .idle → s.stage = .tasks 0) ∧ ∀ n, stage = .tasks n → s.queue.length = n := by
  rcases he with rfl | rfl | rfl
  all_goals
    simp only [next] at h
    split at h
  · cases h
    exact ⟨.timers, rfl, rfl, nofun, nofun⟩
  · cases h
  · cases h
    exact ⟨.tasks s.queue.length, rfl, rfl, nofun, fun _ hn => Stage.tasks.inj hn⟩
  · cases h
  · next hstage =>
    cases h
    exact ⟨.idle, rfl, rfl, fun _ => hstage, nofun⟩
  · cases h

theorem next_timeout [HeadMemory] {timerId : Int} (h : s.next (.timeout timerId) = some s') :
    s.stage = .timers ∧ ∃ t, s.server.wheel.pending.find? (·.id = timerId) = some t ∧
      t.id = timerId ∧ s' = onTimeout { s with server := s.server.taken t.id } t.callback := by
  simp only [next] at h
  split at h
  · next hstage =>
    obtain ⟨t, ht, h⟩ := Option.map_eq_some_iff.mp h
    have hid : t.id = timerId := by simpa using List.find?_some ht
    subst hid
    exact ⟨hstage, t, ht, rfl, h.symm⟩
  · cases h

theorem next_task [HeadMemory] (h : s.next .task = some s') :
    ∃ left, s.stage = .tasks (left + 1) ∧ runTask { s with stage := .tasks left } = some s' := by
  simp only [next] at h
  split at h
  · next left hstage => exact ⟨left, hstage, h⟩
  · cases h

theorem next_start [HeadMemory] (h : s.next (.start fd) = some s') :
    s.server.isOpen fd = false ∧ s' = s.start fd := by
  obtain ⟨hfd, h⟩ := Option.ite_none_left_eq_some.mp h
  exact ⟨Bool.eq_false_iff.mpr hfd, (Option.some.inj h).symm⟩

theorem next_stop [HeadMemory] {order : List Fd} (h : s.next (.stop order) = some s') :
    order.Perm s.fds ∧ s' = s.stop order := by
  obtain ⟨ho, h⟩ := Option.ite_none_right_eq_some.mp h
  exact ⟨ho, (Option.some.inj h).symm⟩

theorem next_other [HeadMemory] {isOpen : Bool} (h : s.next (.other fd isOpen) = some s') :
    (s.server.connections fd = none ∧ fd ≠ s.wakeupFd ∧
        s.listening.map Prod.fst ≠ some fd) ∧
      s' = { s with server := { s.server with
        isOpen := Function.update s.server.isOpen fd isOpen } } := by
  obtain ⟨hfd, h⟩ := Option.ite_none_right_eq_some.mp h
  exact ⟨hfd, (Option.some.inj h).symm⟩

/-! ## The events -/

/-- What an event owes. -/
structure Follows (s : Serving H) (e : LoopEvent H) (s' : Serving H) : Prop where
  inv : s'.Inv
  paced : s'.Paced
  safe : s.Safe → (s'.Safe ↔ s.Spares e)

theorem Paced.stage_eq (hp : s.Paced) (h : Grows s s')
    (hstage : s.stage ≠ .idle ∧ ∀ n, s.stage ≠ .tasks n)
    (hstale : s.stale ≠ [] → ∀ fd, s'.server.connections fd = none) : s'.Paced where
  fresh c hc := by
    rw [h.stage] at hc
    exact lt_of_lt_of_le (hp.fresh c hc) h.length
  stale hne := by
    rw [h.stale] at hne
    rw [h.listening, h.stage]
    exact ⟨hstale hne, (hp.stale hne).2⟩
  idle hidle := absurd (h.stage.symm.trans hidle) hstage.1
  tasks n hn := absurd (h.stage.symm.trans hn) (hstage.2 n)

theorem Safe.grows (hsafe : s.Safe) (h : Grows s s') : s'.Safe := by
  refine ⟨h.broken.trans hsafe.1, fun d hd => h.live d (hsafe.2 d ?_)⟩
  rw [← h.stage]
  exact hd

theorem follows_poll [HeadMemory] (hs : s.Inv) (hp : s.Paced) {select : Int → FdSets → FdSets × Int}
    (h : s.next (.poll select) = some s') : Follows s (.poll select) s' := by
  obtain ⟨poll, active, hpoll, hrep, hsame, hactive⟩ := hs.represents.poll select
  obtain ⟨hstage, ⟨hnone, -⟩ | ⟨poll, active, hpoll', rfl⟩⟩ := next_poll h
  · rw [hpoll] at hnone
    cases hnone
  · cases hpoll.symm.trans hpoll'
    have hqueue := hp.idle hstage
    have hstale : s.stale = [] := (List.append_eq_nil_iff.mp hqueue).1
    refine ⟨⟨hs.server, hrep, hs.owner, hs.apart, hs.reserved, hs.nodup, hs.fds⟩,
      ⟨fun c hc => ?_, fun hne => absurd hstale hne, nofun, nofun⟩, fun hsafe => ?_⟩
    · obtain ⟨fd, events, ht⟩ := hactive c hc
      rw [hsame.length]
      exact hs.lt_length ht
    · refine iff_of_true ⟨hsafe.1, fun c hc => ?_⟩ trivial
      obtain ⟨fd, events, ht⟩ := hactive c hc
      exact hrep.isSome_deref ht

theorem Paced.advance {active : List Nat} (hp : s.Paced)
    (hstage : s.stage = .dispatch (c :: active)) :
    Paced { s with stage := .dispatch active } := by
  have hrest : ∀ d ∈ active, d ∈ s.stage.active := by
    intro d hd
    rw [hstage]
    exact List.mem_cons_of_mem c hd
  refine ⟨fun d hd => hp.fresh d (hrest d hd), fun hne => ?_, nofun, nofun⟩
  obtain ⟨hnone, hl⟩ := hp.stale hne
  exact ⟨hnone, fun l hl' hd => hl l hl' (hrest _ hd)⟩

theorem follows_handle [HeadMemory] (hs : s.Inv) (hp : s.Paced) {out : Outside H}
    (h : s.next (.handle out) = some s') : Follows s (.handle out) s' := by
  obtain ⟨c, active, hstage, hfree, rfl⟩ := next_handle h
  have hrest : ∀ d ∈ active, d ∈ s.stage.active := by
    intro d hd
    rw [hstage]
    exact List.mem_cons_of_mem c hd
  have hs₁ : Inv { s with stage := .dispatch active } := hs.progress _ _ _
  have hp₁ := hp.advance hstage
  cases hch : s.poll.deref c with
  | none =>
    rw [handle_dead (s := { s with stage := .dispatch active }) hch]
    refine ⟨hs.progress _ _ _, ⟨hp₁.fresh, hp₁.stale, nofun, nofun⟩, fun hsafe => ?_⟩
    have hlive := hsafe.2 c (by rw [hstage]; exact List.mem_cons_self)
    rw [hch] at hlive
    cases hlive
  | some ch =>
    obtain ⟨hinv, hgrows, hconn⟩ := hs₁.handle hch hfree
    refine ⟨hinv, hp₁.stage_eq hgrows ⟨nofun, nofun⟩ fun hne fd => ?_, fun hsafe => ?_⟩
    · obtain ⟨hnone, hl⟩ := hp.stale hne
      rcases hconn with hconn | ⟨fd', hl'⟩
      · exact (hconn fd).mpr (hnone fd)
      · refine absurd ?_ (hl _ hl')
        rw [hstage]
        exact List.mem_cons_self
    · have hsafe₁ : Safe { s with stage := .dispatch active } :=
        ⟨hsafe.1, fun d hd => hsafe.2 d (hrest d hd)⟩
      exact iff_of_true (hsafe₁.grows hgrows) trivial

theorem follows_timeout [HeadMemory] (hs : s.Inv) (hp : s.Paced) {timerId : Int}
    (h : s.next (.timeout timerId) = some s') : Follows s (.timeout timerId) s' := by
  obtain ⟨hstage, t, ht, -, rfl⟩ := next_timeout h
  obtain ⟨hinv, hkeeps, -⟩ := hs.timeout (List.mem_of_find?_eq_some ht)
  refine ⟨hinv, hp.stage_eq hkeeps.grows ?_ fun hne fd => ?_, fun hsafe =>
    iff_of_true (hsafe.grows hkeeps.grows) trivial⟩
  · rw [hstage]
    exact ⟨nofun, nofun⟩
  · exact (hkeeps.connections fd).mpr ((hp.stale hne).1 fd)

theorem follows_stage (hs : s.Inv) (hp : s.Paced) {stage : Stage} (hspares : s.Spares e)
    (hstage : stage.active = []) (hidle : stage = .idle → s.queue = [])
    (htasks : ∀ n, stage = .tasks n → s.queue.length = n) : Follows s e { s with stage } := by
  refine ⟨hs.progress _ _ _, ⟨?_, fun hne => ⟨(hp.stale hne).1, ?_⟩, hidle, htasks⟩, fun hsafe =>
    iff_of_true ⟨hsafe.1, ?_⟩ hspares⟩
  · rw [hstage]
    exact fun c hc => absurd hc List.not_mem_nil
  · rw [hstage]
    exact fun l _ => List.not_mem_nil
  · rw [hstage]
    exact fun c hc => absurd hc List.not_mem_nil

theorem runTask_cases (hnone : s.stale ≠ [] → ∀ fd, s.server.connections fd = none)
    (h : s.runTask = some s') :
    (∃ stale, s.stale ≠ [] ∧ s' = { s with stale } ∧ s.queue.length = s'.queue.length + 1) ∨
      ∃ fd tasks, s.stale = [] ∧ s.server.tasks = fd :: tasks ∧
        s' = erase { s with server := { s.server with tasks } } fd := by
  unfold runTask at h
  cases hstale : s.stale with
  | nil =>
    simp only [hstale] at h
    cases htasks : s.server.tasks with
    | nil => simp only [htasks] at h; cases h
    | cons fd tasks =>
      simp only [htasks, Option.some.injEq] at h
      exact .inr ⟨fd, tasks, rfl, rfl, h.symm⟩
  | cons fd stale =>
    simp only [hstale, Option.some.injEq] at h
    have hne : s.stale ≠ [] := by
      rw [hstale]
      exact List.cons_ne_nil fd stale
    have hnone := hnone hne fd
    have hsame : erase { s with stale } fd = { s with stale } := by
      unfold erase
      simp only [hnone]
    rw [hsame] at h
    refine .inl ⟨stale, List.cons_ne_nil fd stale, h.symm, ?_⟩
    rw [← h, queue, queue, hstale]
    rfl

theorem follows_task [HeadMemory] (hs : s.Inv) (hp : s.Paced) (h : s.next .task = some s') :
    Follows s .task s' := by
  obtain ⟨left, hstage, h⟩ := next_task h
  have hlength : s.queue.length = left + 1 := hp.tasks _ hstage
  have hs₁ : Inv { s with stage := .tasks left } := hs.progress _ _ _
  rcases runTask_cases (s := { s with stage := .tasks left }) (fun hne => (hp.stale hne).1) h
    with ⟨stale, hne, rfl, hqueue⟩ | ⟨fd, tasks, hstale, htasks, rfl⟩
  · refine ⟨hs₁.progress _ _ _, ⟨nofun, fun _ => ⟨(hp.stale hne).1, fun _ _ => nofun⟩, nofun,
      fun n hn => ?_⟩, fun hsafe => iff_of_true ⟨hsafe.1, nofun⟩ trivial⟩
    cases hn
    change s.queue.length = _ at hqueue
    omega
  · obtain ⟨hinv, hbeside, hserver⟩ := hs₁.task htasks
    obtain ⟨d, hd, -⟩ := hs.server.queued.mp (htasks ▸ List.mem_cons_self)
    have hqueue := (HttpServer.erase_spec (s := { s.server with tasks }) hd).2.2.2.1
    refine ⟨hinv, ⟨?_, fun hne => absurd (hbeside.stale.trans hstale) hne, ?_, fun n hn => ?_⟩,
      fun hsafe => iff_of_true ⟨hbeside.broken.trans hsafe.1, ?_⟩ trivial⟩
    · rw [hbeside.stage]
      exact nofun
    · rw [hbeside.stage]
      exact nofun
    · rw [hbeside.stage] at hn
      cases hn
      rw [queue, hbeside.stale, hserver, hqueue]
      rw [queue, htasks] at hlength
      change (s.stale ++ tasks).length = left
      simp only [List.length_append, List.length_cons] at hlength ⊢
      omega
    · rw [hbeside.stage]
      exact nofun

theorem follows_start (hs : s.Inv) (hp : s.Paced) {fd : Fd} (hfd : s.server.isOpen fd = false) :
    Follows s (.start fd) (s.start fd) := by
  cases hl : s.listening with
  | some l =>
    rw [start_running hl]
    exact ⟨hs, hp, fun hsafe => iff_of_true hsafe trivial⟩
  | none =>
    have hinv := hs.start hfd
    rw [start_eq hl] at hinv ⊢
    have hlength := length_construct s.poll fd
    refine ⟨hinv, ⟨fun c hc => ?_, fun hne => ⟨(hp.stale hne).1, fun l hl' hc => ?_⟩, hp.idle,
      hp.tasks⟩, fun hsafe => iff_of_true ⟨hsafe.1, fun c hc => ?_⟩ trivial⟩
    · have hlt := hp.fresh c hc
      simp only [watch, hlength]
      omega
    · -- the new channel is not among those that `loop()` got from `poll`
      cases hl'
      exact Nat.lt_irrefl _ (hp.fresh _ hc)
    · exact live_watch s.poll fd c (hsafe.2 c hc)

theorem follows_stop (hs : s.Inv) (hp : s.Paced) {order : List Fd} (ho : order.Perm s.fds) :
    Follows s (.stop order) (s.stop order) := by
  cases hl : s.listening with
  | none =>
    rw [stop_idle hl]
    refine ⟨hs, hp, fun hsafe => iff_of_true hsafe fun hrunning => ?_⟩
    rw [hl] at hrunning
    cases hrunning
  | some l =>
    have hstopped := hs.stop hl ho
    have hqueue : (s.stop order).queue = s.queue := by
      rw [queue, hstopped.stale, hstopped.server.tasks, List.append_nil]
    refine ⟨hstopped.inv hs, ⟨fun c hc => ?_,
      fun _ => ⟨hstopped.server.connections, fun l hl' => ?_⟩,
      fun hidle => ?_, fun n hn => ?_⟩, fun hsafe => ?_⟩
    · rw [hstopped.stage] at hc
      rw [hstopped.length]
      exact hp.fresh c hc
    · rw [hstopped.listening] at hl'
      cases hl'
    · rw [hqueue]
      exact hp.idle (hstopped.stage.symm.trans hidle)
    · rw [hqueue]
      exact hp.tasks n (hstopped.stage.symm.trans hn)
    · rw [Safe, hstopped.stage, hstopped.broken]
      constructor
      · rintro ⟨-, hlive⟩ _ c hc
        exact (hstopped.live_iff c).mp (hlive c hc)
      · intro hspares
        refine ⟨hsafe.1, fun c hc => (hstopped.live_iff c).mpr (hspares ?_ c hc)⟩
        rw [hl]
        rfl

theorem follows_stopIn [HeadMemory] (hs : s.Inv) (hp : s.Paced) {out : Outside H} {order : List Fd}
    (h : s.next (.stopIn out order) = some s') : Follows s (.stopIn out order) s' := by
  obtain ⟨c, active, hstage, ho, rfl⟩ := next_stopIn h
  have hstop := follows_stop (s := { s with stage := .dispatch active }) (hs.progress _ _ _)
    (hp.advance hstage) ho
  obtain ⟨hfresh, hstale, hidle, htasks⟩ := hstop.paced
  exact ⟨hstop.inv.progress _ _ _, ⟨hfresh, hstale, hidle, htasks⟩,
    fun _ => iff_of_false (fun hsafe => by cases hsafe.1) id⟩

theorem follows_other [HeadMemory] (hs : s.Inv) (hp : s.Paced) {fd : Fd} {isOpen : Bool}
    (h : s.next (.other fd isOpen) = some s') : Follows s (.other fd isOpen) s' := by
  obtain ⟨⟨hnone, hw, hl⟩, rfl⟩ := next_other h
  refine ⟨⟨hs.server.openAs hnone isOpen, hs.represents, hs.owner, hs.apart, fun {fd'} hr => ?_,
    hs.nodup, hs.fds⟩, ⟨hp.fresh, hp.stale, hp.idle, hp.tasks⟩, fun hsafe =>
    iff_of_true hsafe trivial⟩
  obtain ⟨hnone', hopen⟩ := hs.reserved hr
  have hne : fd' ≠ fd := by
    rintro rfl
    rcases hr with hr | hr
    · exact hw hr
    · exact hl hr
  exact ⟨hnone', (Function.update_of_ne hne ..).trans hopen⟩

/-- **Every event** keeps the invariant and the pace of the loop, and keeps it safe unless it is a
`stop` that finds channels of the server still to be called, or comes from a handler. -/
theorem next_spec [HeadMemory] (hs : s.Inv) (hp : s.Paced) (h : s.next e = some s') :
    Follows s e s' := by
  cases e with
  | poll select => exact follows_poll hs hp h
  | handle out => exact follows_handle hs hp h
  | stopIn out order => exact follows_stopIn hs hp h
  | timeout timerId => exact follows_timeout hs hp h
  | task => exact follows_task hs hp h
  | dispatched | ticked | iterated =>
    obtain ⟨stage, rfl, hactive, hidle, htasks⟩ := next_stage (by simp) h
    exact follows_stage hs hp trivial hactive
      (fun h0 => List.eq_nil_of_length_eq_zero (hp.tasks 0 (hidle h0))) htasks
  | start fd =>
    obtain ⟨hfd, rfl⟩ := next_start h
    exact follows_start hs hp hfd
  | stop order =>
    obtain ⟨ho, rfl⟩ := next_stop h
    exact follows_stop hs hp ho
  | other fd isOpen => exact follows_other hs hp h

end Serving

end Hound.Http
