import Hound.Http.ServingRuns

/-!
# Runs of a server on its loop

`created` is an `HttpServer` on a new loop; it may be started and stopped any number of times
from there. `dispatch_safe_iff` says in which runs the loop never holds on to a destroyed
channel. Whenever it polls, it watches for reading what it should and nothing else
(`polls_settled`); `stop` gives all of it back (`stop_releases`), and no erase that was queued
before destroys a connection that is open (`tasks_spare_open`). Up to the next `stop` the server
goes through a run of `HttpServer.machine` (`refines`).
-/

namespace Hound.Http

open Lib Reactor PollState

variable {H : Type}

namespace Serving

variable {server : HttpServer H} {wakeupFd : Fd} {s s' start : Serving H}
  {events : List (LoopEvent H)} {e : LoopEvent H}

def created (server : HttpServer H) (wakeupFd : Fd) : Serving H :=
  watch { server, poll := {}, wakeupFd } wakeupFd .wakeup

theorem represents_empty : Represents {} fun _ => none where
  entry := iff_of_false nofun (by rintro ⟨ch, hch, -⟩; cases hch)
  lookup _ := rfl
  added hc := by cases hc
  intact := intact_init

theorem created_inv (h0 : server.Started) (hfd : server.isOpen wakeupFd = true) :
    (created server wakeupFd).Inv := by
  have htable : (created server wakeupFd).table =
      Function.update (fun _ => none) wakeupFd (some (0, kReadEvent)) := by
    funext fd
    by_cases hw : fd = wakeupFd
    · rw [hw, Function.update_self]
      exact if_pos rfl
    · rw [Function.update_of_ne hw]
      have hfree : ¬ (created server wakeupFd).Reserved fd := by
        rintro (hw' | hl)
        · exact hw hw'
        · cases hl
      have hnone : (created server wakeupFd).server.closedAt fd = none :=
        HttpServer.closedAt_eq_none.mpr (h0.connections fd)
      rw [table_of_not_reserved hfree, hnone]
      rfl
  constructor
  case server => exact h0.inv
  case represents =>
    rw [htable]
    exact represents_empty.construct rfl
  case owner =>
    intro fd c events ht
    rw [htable] at ht
    by_cases hw : fd = wakeupFd
    · subst hw
      rw [Function.update_self, Option.some.injEq, Prod.mk.injEq] at ht
      rw [← ht.1]
      exact (if_pos rfl).symm
    · rw [Function.update_of_ne hw] at ht
      cases ht
  case apart => exact nofun
  case reserved =>
    rintro fd (rfl | hl)
    · exact ⟨h0.connections _, hfd⟩
    · cases hl
  case nodup => exact List.nodup_nil
  case fds => exact fun fd => iff_of_false List.not_mem_nil fun hne => hne (h0.connections fd)

theorem created_paced (h0 : server.Started) : (created server wakeupFd).Paced :=
  ⟨nofun, fun hne => absurd rfl hne, fun _ => h0.tasks, nofun⟩

theorem created_safe : (created server wakeupFd).Safe := ⟨rfl, nofun⟩

theorem machine_step [HeadMemory] (h : (machine start).step s e = some s') :
    s.next e = some s' := by
  simp only [machine] at h
  split at h
  · cases h
  · exact h

theorem machine_kept [HeadMemory] : (machine start).Kept fun s => s.Inv ∧ s.Paced := fun hs h =>
  have hfollows := next_spec hs.1 hs.2 (machine_step h)
  ⟨hfollows.inv, hfollows.paced⟩

theorem reached [HeadMemory] (h0 : server.Started) (hfd : server.isOpen wakeupFd = true)
    (h : (machine (created server wakeupFd)).run events = some s) : s.Inv ∧ s.Paced :=
  Machine.invariant (I := fun s => s.Inv ∧ s.Paced) ⟨created_inv h0 hfd, created_paced h0⟩
    machine_kept h

/-! ## Some runs -/

def accepts (fd : Fd) : Outside Unit :=
  { accepted := some fd, env := idleEnv, read := .fail, now := ⟨0⟩ }

def reports (given : FdSets) : LoopEvent Unit := .poll fun _ _ => (given, given.bits)

def fresh : Serving Unit := created HttpServer.small 3

theorem small_started : HttpServer.small.Started :=
  ⟨.new (by decide) _ _, rfl, fun _ => rfl, rfl, rfl⟩

/-- One connection is accepted; it fails in the next iteration, and before its erase is run the
server is stopped and started again. -/
def restart : List (LoopEvent Unit) :=
  [.start 4, reports { read := [4] }, .handle (accepts 5), .dispatched, .ticked, .iterated,
    reports { except := [5] }, .handle (accepts 6), .dispatched, .stop [5], .start 4, .ticked,
    .task, .iterated]

def turnover : List (LoopEvent Unit) :=
  restart.take 6 ++ [reports { read := [4], except := [5] }, .handle (accepts 6),
    .handle (accepts 7), .dispatched, .ticked]

def after (events : List (LoopEvent Unit)) : Serving Unit := ((machine fresh).run events).getD fresh

def brings (bs : Bytes) (env : ServerEnv Unit) : Outside Unit :=
  { accepted := none, env, read := .data bs, now := ⟨0⟩ }

/-- A connection is accepted, and then the server is stopped, by a task or a timer. -/
def stopped : List (LoopEvent Unit) :=
  [.start 4, reports { read := [4] }, .handle (accepts 5), .dispatched, .stop [5]]

/-- A connection is accepted, and its first request is for a handler that stops the server. -/
def stoppedByHandler : List (LoopEvent Unit) :=
  let env := { idleEnv with router := Router.add {} (bytes "GET") (bytes "/") (some ()) }
  restart.take 6 ++
    [reports { read := [5] }, .stopIn (brings (bytes "GET / HTTP/1.1\r\n\r\n") env) [5]]

/-! ## What holds of every run -/

/-- **Destroyed channels.** In a run of the loop no destroyed channel is ever used or still to be
called exactly if no handler calls `stop`, and every other `stop` of a running server that
comes between the callbacks of `active_channels` finds at most the wakeup channel left there. -/
theorem dispatch_safe_iff [HeadMemory] (h0 : server.Started) (hfd : server.isOpen wakeupFd = true)
    (h : (machine (created server wakeupFd)).run events = some s) :
    (machine (created server wakeupFd)).Always Safe events ↔
      (machine (created server wakeupFd)).Each Spares events :=
  Machine.always_iff_each (I := fun s => s.Inv ∧ s.Paced) ⟨created_inv h0 hfd, created_paced h0⟩
    created_safe machine_kept
    (fun hs hsafe h => (next_spec hs.1 hs.2 (machine_step h)).safe hsafe) h

theorem dispatch_safe_stopped : (machine fresh).Always Safe stopped ∧
    ¬ (machine fresh).Always Safe stoppedByHandler := by
  constructor
  · have h : (machine fresh).run stopped = some (after stopped) := rfl
    refine (dispatch_safe_iff small_started rfl h).mpr ⟨trivial, ?_⟩
    rintro _ ⟨⟩
    refine ⟨trivial, ?_⟩
    rintro _ ⟨⟩
    refine ⟨trivial, ?_⟩
    rintro _ ⟨⟩
    refine ⟨trivial, ?_⟩
    rintro _ ⟨⟩
    exact ⟨nofun, fun _ _ => trivial⟩
  · obtain ⟨s, h⟩ : ∃ s, (machine fresh).run stoppedByHandler = some s :=
      Option.isSome_iff_exists.mp (by decide +kernel)
    intro hsafe
    have hspares := (dispatch_safe_iff small_started rfl h).mp hsafe
    exact (((((((hspares.2 _ rfl).2 _ rfl).2 _ rfl).2 _ rfl).2 _ rfl).2 _ rfl).2 _ rfl).1

/-- **What is watched.** Whenever the loop polls, no erase is queued, every connection is open with
its one timeout pending, and `select` is asked to read from the wakeup fd, the listening
socket and the connections, and to write to nothing. -/
theorem polls_settled [HeadMemory] (h0 : server.Started) (hfd : server.isOpen wakeupFd = true)
    (h : (machine (created server wakeupFd)).run events = some s) (hidle : s.stage = .idle) :
    s.queue = [] ∧
    (∀ fd c, s.server.connections fd = some c → c.closed = false ∧
      (s.server.wheel.pending.filter fun t => t.callback = ⟨c.object, fd⟩).map (·.id) =
        [c.timeoutTimer]) ∧
    ∃ asked maxFd, s.poll.rebuildFds = some (asked, maxFd) ∧
      (∀ fd, fd ∈ asked.read ↔ fd = s.wakeupFd ∨ s.listening.map Prod.fst = some fd ∨
        s.server.connections fd ≠ none) ∧
      ∀ fd, fd ∉ asked.write := by
  obtain ⟨hs, hp⟩ := reached h0 hfd h
  have hqueue := hp.idle hidle
  have hopen {fd : Fd} {c : Session H} (hc : s.server.connections fd = some c) :
      c.closed = false := by
    refine Bool.eq_false_iff.mpr fun hclosed => ?_
    have hmem := hs.server.queued.mpr ⟨c, hc, hclosed⟩
    rw [(List.append_eq_nil_iff.mp hqueue).2] at hmem
    cases hmem
  refine ⟨hqueue, fun fd c hc => ⟨hopen hc, hs.server.timers_eq hc (hopen hc)⟩, ?_⟩
  obtain ⟨asked, maxFd, hasked, hread, hwrite⟩ := hs.represents.rebuildFds
  -- every entry of the table watches for reading, for all connections are open
  have hevents {fd : Fd} {c : Nat} {events : BitVec 32} (ht : s.table fd = some (c, events)) :
      events = kReadEvent := by
    rcases hs.table_cases ht with ⟨rfl, -⟩ | hl | ⟨hsome, -⟩
    · rw [table_wakeup, Option.some.injEq, Prod.mk.injEq] at ht
      exact ht.2.symm
    · have hself := hs.table_listener hl
      rw [ht, Option.some.injEq, Prod.mk.injEq] at hself
      exact hself.2
    · obtain ⟨d, hd⟩ := Option.ne_none_iff_exists'.mp hsome
      have hself := hs.table_connection hd
      rw [ht, Option.some.injEq, Prod.mk.injEq, hopen hd, if_neg Bool.false_ne_true] at hself
      exact hself.2
  refine ⟨asked, maxFd, hasked, fun fd => (hread fd).trans ⟨?_, ?_⟩, fun fd hin => ?_⟩
  · rintro ⟨c, events, ht, -⟩
    rcases hs.table_cases ht with ⟨hw, -⟩ | hl | ⟨hsome, -⟩
    · exact .inl hw
    · exact .inr (.inl (by rw [hl, Option.map_some]))
    · exact .inr (.inr hsome)
  · rintro (rfl | hl | hsome)
    · exact ⟨0, kReadEvent, s.table_wakeup, by decide⟩
    · obtain ⟨l, hlistening, rfl⟩ := Option.map_eq_some_iff.mp hl
      exact ⟨l.2, kReadEvent, hs.table_listener hlistening, by decide⟩
    · obtain ⟨d, hd⟩ := Option.ne_none_iff_exists'.mp hsome
      have ht := hs.table_connection hd
      rw [hevents ht] at ht
      exact ⟨s.channel fd, kReadEvent, ht, by decide⟩
  · obtain ⟨c, events, ht, hmask⟩ := (hwrite fd).mp hin
    rw [hevents ht] at hmask
    exact hmask (by decide)

theorem polls_settled_accepted : (after (restart.take 6)).queue = [] ∧
    ∃ asked maxFd, (after (restart.take 6)).poll.rebuildFds = some (asked, maxFd) ∧
      4 ∈ asked.read ∧ 5 ∈ asked.read := by
  have h : (machine fresh).run (restart.take 6) = some (after (restart.take 6)) := rfl
  obtain ⟨hqueue, -, asked, maxFd, hasked, hread, -⟩ := polls_settled small_started rfl h rfl
  refine ⟨hqueue, asked, maxFd, hasked, (hread 4).mpr (.inr (.inl rfl)), (hread 5).mpr (.inr ?_)⟩
  exact .inr (Option.some_ne_none _)

/-- **`stop`**, in every state of a run in which the server is running: no connection, no timeout
and no listening socket is left, the fds of all of them are closed and no other, and the
next `poll` asks for the wakeup fd alone, to read from it and for exceptions. -/
theorem stop_releases [HeadMemory] (h0 : server.Started) (hfd : server.isOpen wakeupFd = true)
    (h : (machine (created server wakeupFd)).run events = some s) {l : Fd × Nat}
    (hl : s.listening = some l) {order : List Fd} (ho : order.Perm s.fds) :
    (∀ fd, (s.stop order).server.connections fd = none) ∧
    (s.stop order).server.wheel.pending = [] ∧ (s.stop order).listening = none ∧
    (∀ fd, (s.stop order).server.isOpen fd = true ↔ s.server.isOpen fd = true ∧
      s.server.connections fd = none ∧ fd ≠ l.1) ∧
    ∃ asked maxFd, (s.stop order).poll.rebuildFds = some (asked, maxFd) ∧
      (∀ fd, fd ∈ asked.read ↔ fd = s.wakeupFd) ∧ (∀ fd, fd ∉ asked.write) ∧
      ∀ fd, fd ∈ asked.except ↔ fd = s.wakeupFd := by
  have hstopped := (reached h0 hfd h).1.stop hl ho
  refine ⟨hstopped.server.connections, hstopped.server.pending, hstopped.listening,
    fun fd => ?_, ?_⟩
  · rw [hstopped.isOpen, hl, Option.map_some, ne_eq, Option.some.injEq, ne_eq, eq_comm (a := l.1)]
  · obtain ⟨asked, maxFd, hasked, hread, hwrite⟩ := hstopped.represents.rebuildFds
    have hentry {fd : Fd} {c : Nat} {events : BitVec 32}
        (ht : (s.stop order).wakeupTable fd = some (c, events)) :
        fd = s.wakeupFd ∧ events = kReadEvent := by
      unfold wakeupTable at ht
      split at ht
      · next hw => exact ⟨hw.trans hstopped.wakeupFd, (Prod.mk.inj (Option.some.inj ht)).2.symm⟩
      · cases ht
    have hself : (s.stop order).wakeupTable s.wakeupFd = some (0, kReadEvent) :=
      if_pos hstopped.wakeupFd.symm
    refine ⟨asked, maxFd, hasked, fun fd => (hread fd).trans ⟨?_, ?_⟩, fun fd hin => ?_,
      fun fd => (hstopped.represents.except hasked fd).trans ⟨fun hne => ?_, ?_⟩⟩
    · rintro ⟨c, events, ht, -⟩
      exact (hentry ht).1
    · rintro rfl
      exact ⟨0, kReadEvent, hself, by decide⟩
    · obtain ⟨c, events, ht, hmask⟩ := (hwrite fd).mp hin
      rw [(hentry ht).2] at hmask
      exact hmask (by decide)
    · obtain ⟨⟨c, events⟩, ht⟩ := Option.ne_none_iff_exists'.mp hne
      exact (hentry ht).1
    · rintro rfl
      rw [hself]
      exact Option.some_ne_none _

theorem stop_releases_restart : ((after (restart.take 9)).stop [5]).server.wheel.pending = [] ∧
    ((after (restart.take 9)).stop [5]).server.isOpen 5 = false := by
  have h : (machine fresh).run (restart.take 9) = some (after (restart.take 9)) := rfl
  obtain ⟨-, hpending, -, hopen, -⟩ :=
    stop_releases small_started rfl h (l := (4, 1)) rfl (List.Perm.refl [5])
  refine ⟨hpending, Bool.eq_false_iff.mpr fun h5 => ?_⟩
  cases ((hopen 5).mp h5).2.1

/-- **Old erases.** A task holds an fd, not a connection, and may be left over from before a `stop`;
still, in every run, it destroys no connection that is open. -/
theorem tasks_spare_open [HeadMemory] (h0 : server.Started) (hfd : server.isOpen wakeupFd = true)
    (h : (machine (created server wakeupFd)).run events = some s)
    (htask : (machine (created server wakeupFd)).step s .task = some s') {fd : Fd} {c : Session H}
    (hc : s.server.connections fd = some c) (hopen : c.closed = false) :
    s'.server.connections fd = some c := by
  obtain ⟨hs, hp⟩ := reached h0 hfd h
  have h := machine_step htask
  obtain ⟨left, hstage, h⟩ := next_task h
  rcases runTask_cases (s := { s with stage := .tasks left }) (fun hne => (hp.stale hne).1) h
    with ⟨stale, hne, rfl, -⟩ | ⟨fd', tasks, -, htasks, rfl⟩
  · exact hc
  · have hs₁ : Inv { s with stage := .tasks left } := hs.progress _ _ _
    obtain ⟨-, -, hserver⟩ := hs₁.task htasks
    obtain ⟨d, hd, hclosed⟩ := hs.server.queued.mp (htasks ▸ List.mem_cons_self)
    have hne : fd ≠ fd' := by
      rintro rfl
      rw [hc, Option.some.injEq] at hd
      rw [hd, hclosed] at hopen
      cases hopen
    obtain ⟨-, hother, -⟩ := HttpServer.erase_spec (s := { s.server with tasks }) hd
    rw [hserver]
    exact (hother fd hne).1.trans hc

theorem tasks_spare_open_turnover : ∃ c, (after turnover).server.connections 6 = some c ∧
    (after (turnover ++ [.task])).server.connections 6 = some c ∧
    (after (turnover ++ [.task])).server.connections 5 = none := by
  have h : (machine fresh).run turnover = some (after turnover) := rfl
  have htask : (machine fresh).step (after turnover) .task = some (after (turnover ++ [.task])) :=
    rfl
  exact ⟨_, rfl, tasks_spare_open small_started rfl h htask rfl rfl, rfl⟩

/-! ## The server of the loop -/

/-- What a callback is for the server. -/
def seenBy (out : Outside H) : Owner → Callback → List (ServerEvent H)
  | .listener, .read => [.accept out.accepted out.now]
  | .connection fd, .read => [.message fd out.env out.read out.now]
  | .connection fd, .error | .connection fd, .close => [.close fd]
  | _, _ => []

/-- What an event of the loop is for the server. -/
def seen (s : Serving H) : LoopEvent H → List (ServerEvent H)
  | .handle out =>
    match s.stage with
    | .dispatch (c :: _) =>
      match s.poll.deref c with
      | none => []
      | some ch => (ch.handleEvent none).flatMap (seenBy out (s.owner c))
    | _ => []
  | .timeout timerId => [.timeout timerId]
  | .task => [.task]
  | .start fd => if s.listening.isSome then [] else [.other fd true]
  | .other fd isOpen => [.other fd isOpen]
  | .poll _ | .dispatched | .ticked | .iterated | .stop _ | .stopIn _ _ => []

/-- What a run of the loop is for the server. -/
def trace [HeadMemory] : Serving H → List (LoopEvent H) → List (ServerEvent H)
  | _, [] => []
  | s, e :: events => s.seen e ++
    match (machine s).step s e with
    | none => []
    | some s' => trace s' events

theorem seen_callbacks [HeadMemory] (server : HttpServer H) (out : Outside H) (fd : Fd) :
    ∀ (cbs : List Callback) (s : Serving H),
      (HttpServer.machine server).runFrom s.server (cbs.flatMap (seenBy out (.connection fd))) =
        some (cbs.foldl (callback out (.connection fd)) s).server
  | [], s => rfl
  | cb :: cbs, s => by
    have ih := seen_callbacks server out fd cbs (callback out (.connection fd) s cb)
    rw [List.flatMap_cons, List.foldl_cons]
    cases cb with
    | write => exact ih
    | read =>
      simp only [callback, onMessage_server] at ih ⊢
      exact ih
    | error | close =>
      simp only [callback, onClose_server] at ih ⊢
      exact ih

theorem seen_listener [HeadMemory] (server : HttpServer H) {out : Outside H} {s : Serving H}
    (hfree : ∀ fd ∈ out.accepted, s.server.isOpen fd = false) (ch : Channel) :
    (HttpServer.machine server).runFrom s.server
        ((ch.handleEvent none).flatMap (seenBy out .listener)) =
      some ((ch.handleEvent none).foldl (callback out .listener) s).server := by
  have haccept : (HttpServer.machine server).step s.server (.accept out.accepted out.now) =
      some (s.onAccept out).server := by
    unfold onAccept
    cases hfd : out.accepted with
    | none => rfl
    | some fd => exact if_neg (Bool.eq_false_iff.mp (hfree fd hfd))
  have hread : (HttpServer.machine server).runFrom s.server [.accept out.accepted out.now] =
      some (s.onAccept out).server := Machine.runFrom_one haccept
  unfold Channel.handleEvent
  rw [if_neg nofun]
  split_ifs <;> first | rfl | exact hread

theorem seen_wakeup [HeadMemory] (server : HttpServer H) (out : Outside H) (s : Serving H)
    (ch : Channel) :
    (HttpServer.machine server).runFrom s.server
        ((ch.handleEvent none).flatMap (seenBy out .wakeup)) =
      some ((ch.handleEvent none).foldl (callback out .wakeup) s).server := by
  unfold Channel.handleEvent
  rw [if_neg nofun]
  split_ifs <;> rfl

theorem seen_handle [HeadMemory] (server : HttpServer H) (hs : s.Inv) (hstale : s.stale = [])
    {out : Outside H}
    (h : s.next (.handle out) = some s') :
    (HttpServer.machine server).runFrom s.server (s.seen (.handle out)) = some s'.server ∧
      s'.stale = [] := by
  obtain ⟨c, active, hstage, hfree, rfl⟩ := next_handle h
  have hs₁ : Inv { s with stage := .dispatch active } := hs.progress _ _ _
  unfold seen
  rw [hstage]
  simp only
  cases hch : s.poll.deref c with
  | none =>
    rw [handle_dead (s := { s with stage := .dispatch active }) hch]
    exact ⟨rfl, hstale⟩
  | some ch =>
    obtain ⟨-, hgrows, -⟩ := hs₁.handle (s := { s with stage := .dispatch active }) hch hfree
    refine ⟨?_, hgrows.stale.trans hstale⟩
    unfold handle
    simp only [hch]
    cases s.owner c with
    | wakeup => exact seen_wakeup server out { s with stage := .dispatch active } ch
    | listener => exact seen_listener server (s := { s with stage := .dispatch active }) hfree ch
    | connection fd => exact seen_callbacks server out fd _ { s with stage := .dispatch active }

theorem seen_next [HeadMemory] (server : HttpServer H) (hs : s.Inv) (hstale : s.stale = [])
    (hstop : ¬ e.Stops) (h : s.next e = some s') :
    (HttpServer.machine server).runFrom s.server (s.seen e) = some s'.server ∧ s'.stale = [] := by
  cases e with
  | stop | stopIn => exact absurd trivial hstop
  | poll select =>
    obtain ⟨-, ⟨-, rfl⟩ | ⟨poll, active, -, rfl⟩⟩ := next_poll h <;> exact ⟨rfl, hstale⟩
  | dispatched | ticked | iterated =>
    obtain ⟨stage, rfl, -⟩ := next_stage (by simp) h
    exact ⟨rfl, hstale⟩
  | handle out => exact seen_handle server hs hstale h
  | timeout timerId =>
    obtain ⟨-, t, ht, rfl, rfl⟩ := next_timeout h
    obtain ⟨-, hkeeps, hserver⟩ := hs.timeout (List.mem_of_find?_eq_some ht)
    refine ⟨Machine.runFrom_one ?_, hkeeps.stale.trans hstale⟩
    rw [hserver]
    simp only [HttpServer.machine, ht]
    rfl
  | task =>
    obtain ⟨left, hstage, h⟩ := next_task h
    rcases runTask_cases (s := { s with stage := .tasks left }) (fun hne => absurd hstale hne) h
      with ⟨stale, hne, -⟩ | ⟨fd, tasks, -, htasks, rfl⟩
    · exact absurd hstale hne
    · have hs₁ : Inv { s with stage := .tasks left } := hs.progress _ _ _
      obtain ⟨-, hbeside, hserver⟩ := hs₁.task htasks
      refine ⟨Machine.runFrom_one ?_, hbeside.stale.trans hstale⟩
      have htasks : s.server.tasks = fd :: tasks := htasks
      rw [hserver]
      simp only [HttpServer.machine, htasks]
  | start fd =>
    obtain ⟨hfd, rfl⟩ := next_start h
    have hnone := (hs.server.free hfd).1
    cases hl : s.listening with
    | some l =>
      rw [start_running hl]
      unfold seen
      rw [hl]
      exact ⟨rfl, hstale⟩
    | none =>
      rw [start_eq hl]
      unfold seen
      rw [hl]
      exact ⟨Machine.runFrom_one (if_pos hnone), hstale⟩
  | other fd isOpen =>
    obtain ⟨hother, rfl⟩ := next_other h
    exact ⟨Machine.runFrom_one (if_pos hother.1), hstale⟩

theorem trace_runFrom [HeadMemory] (server : HttpServer H) :
    ∀ {events : List (LoopEvent H)} {s : Serving H},
    s.Inv ∧ s.Paced → s.stale = [] → (∀ e ∈ events, ¬ e.Stops) →
    (machine start).runFrom s events = some s' →
    (HttpServer.machine server).runFrom s.server (trace s events) = some s'.server
  | [], _, _, _, _, h => by
    cases h
    rfl
  | e :: events, s, hs, hstale, hstop, h => by
    obtain ⟨s₁, h1, h2⟩ := Machine.runFrom_cons h
    obtain ⟨he, hstop⟩ := List.forall_mem_cons.mp hstop
    obtain ⟨hrun, hstale₁⟩ := seen_next server hs.1 hstale he (machine_step h1)
    have h1' : (machine s).step s e = some s₁ := h1
    rw [trace, h1']
    exact Machine.runFrom_append hrun
      (trace_runFrom server (machine_kept hs h1) hstale₁ hstop h2)

/-- **The loop refines the server.** From any state `s` of a run in which no erase from before a
`stop` is left, up to the next `stop`, the server goes through a run of `HttpServer.machine`, whose
events are the callbacks that the loop makes. -/
theorem refines [HeadMemory] (h0 : server.Started) (hfd : server.isOpen wakeupFd = true)
    (h : (machine (created server wakeupFd)).run events = some s) (hstale : s.stale = [])
    {more : List (LoopEvent H)} (hstop : ∀ e ∈ more, ¬ e.Stops)
    (hmore : (machine (created server wakeupFd)).runFrom s more = some s') :
    (HttpServer.machine s.server).run (s.trace more) = some s'.server :=
  trace_runFrom s.server (reached h0 hfd h) hstale hstop hmore

theorem refines_restart : (HttpServer.machine (after restart).server).run
    ((after restart).trace [reports { read := [4] }, .handle (accepts 5)]) =
      some (after (restart ++ [reports { read := [4] }, .handle (accepts 5)])).server := by
  have h : (machine fresh).run restart = some (after restart) := rfl
  exact refines small_started rfl h rfl (by simp [reports, LoopEvent.Stops]) rfl

end Serving

end Hound.Http
