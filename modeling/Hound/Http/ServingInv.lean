import Hound.Http.Serving

/-!
# Connections and their channels

`Serving.Inv` ties the channels of the loop to the server: the poller has exactly the wakeup
channel, the listening one and one for each connection, which watches for reading as long
as the connection is open (`table`), and the callbacks of each belong to its fd. Closing, serving
and timing out change the entry of one fd (`Keeps` is what they leave alone); accepting adds one and
erasing takes one away.
-/

namespace Hound.Http

open Lib Reactor PollState

variable {H : Type}

namespace HttpServer

variable {s : HttpServer H} {fd : Fd} {c : Session H}

def closedAt (s : HttpServer H) (fd : Fd) : Option Bool := (s.connections fd).map (·.closed)

theorem closedAt_eq_none : s.closedAt fd = none ↔ s.connections fd = none := Option.map_eq_none_iff

theorem isLive_iff : s.isLive fd = true ↔ s.closedAt fd = some false := by
  unfold isLive closedAt
  cases s.connections fd <;> simp

theorem closedAt_of_some (hc : s.connections fd = some c) : s.closedAt fd = some c.closed := by
  rw [closedAt, hc, Option.map_some]

@[simp] theorem isOpen_onClose (s : HttpServer H) (fd : Fd) : (s.onClose fd).isOpen = s.isOpen := by
  unfold onClose
  cases s.connections fd with
  | none => rfl
  | some c => simp only; split <;> rfl

@[simp] theorem isOpen_onMessage (s : HttpServer H) (fd : Fd) (env : ServerEnv H)
    (r : ReadOutcome) (now : Timestamp) : (s.onMessage fd env r now).isOpen = s.isOpen := by
  unfold onMessage
  cases s.connections fd with
  | none => rfl
  | some c => simp only; split <;> [rfl; (split <;> split <;> rfl)]

theorem closedAt_onClose (h : s.isLive fd = true) :
    (s.onClose fd).closedAt = Function.update s.closedAt fd (some true) := by
  obtain ⟨c, hc, hopen⟩ := Option.map_eq_some_iff.mp (isLive_iff.mp h)
  funext fd'
  by_cases hne : fd' = fd
  · subst hne
    rw [Function.update_self, closedAt, entry_onClose hc hopen]
    exact congrArg some (Connection.closed_onClose _)
  · rw [Function.update_of_ne hne, closedAt, connections_onClose_ne hne]
    rfl

theorem closedAt_onAccept [HeadMemory] (s : HttpServer H) (fd : Fd) (now : Timestamp) :
    (s.onAccept fd now).closedAt = Function.update s.closedAt fd (some false) := by
  funext fd'
  unfold closedAt
  by_cases hne : fd' = fd
  · subst hne
    rw [Function.update_self]
    exact congrArg (Option.map _) (connections_put_self ..)
  · rw [Function.update_of_ne hne]
    exact congrArg (Option.map _) (connections_put_ne hne ..)

theorem closedAt_erase (hc : s.connections fd = some c) :
    (s.erase fd).closedAt = Function.update s.closedAt fd none := by
  obtain ⟨hnone, hother, -⟩ := erase_spec hc
  funext fd'
  by_cases hne : fd' = fd
  · rw [hne, Function.update_self, closedAt_eq_none, hnone]
  · rw [Function.update_of_ne hne, closedAt, (hother fd' hne).1, closedAt]

/-- `on_message` closes the connection it serves or leaves all as open or closed as they are. -/
theorem closedAt_onMessage (s : HttpServer H) (fd : Fd) (env : ServerEnv H) (r : ReadOutcome)
    (now : Timestamp) :
    (s.onMessage fd env r now).closedAt =
      if s.isLive fd && !(s.onMessage fd env r now).isLive fd then
        Function.update s.closedAt fd (some true)
      else s.closedAt := by
  have hother {fd' : Fd} (hne : fd' ≠ fd) :
      (s.onMessage fd env r now).closedAt fd' = s.closedAt fd' := by
    rw [closedAt, connections_onMessage_ne hne, closedAt]
  -- what becomes of the entry of `fd`
  have hself : (s.onMessage fd env r now).closedAt fd =
      if s.isLive fd && !(s.onMessage fd env r now).isLive fd then some true
      else s.closedAt fd := by
    cases hc : s.connections fd with
    | none =>
      have hsame : s.onMessage fd env r now = s := by
        unfold onMessage
        rw [hc]
      rw [hsame, isLive, hc]
      rfl
    | some c =>
      cases hclosed : c.closed with
      | true =>
        rw [onMessage_of_closed hc hclosed, isLive_of_closed hc hclosed]
        rfl
      | false =>
        obtain ⟨timer, hentry⟩ := entry_onMessage hc hclosed env r now
        have hlive : (s.onMessage fd env r now).isLive fd =
            !(c.toConnection.onMessage env r).1.closed := by
          rw [isLive, hentry]
          rfl
        rw [isLive_of_open hc hclosed, hlive, closedAt_of_some hentry, closedAt_of_some hc, hclosed]
        change some (c.toConnection.onMessage env r).1.closed = _
        cases (c.toConnection.onMessage env r).1.closed <;> rfl
  funext fd'
  by_cases hne : fd' = fd
  · subst hne
    rw [hself]
    split
    · rw [Function.update_self]
    · rfl
  · rw [hother hne]
    split
    · rw [Function.update_of_ne hne]
    · rfl

end HttpServer

namespace Serving

variable {s s' : Serving H} {fd : Fd} {c : Nat}

def table (s : Serving H) : ChannelTable := fun fd =>
  if fd = s.wakeupFd then some (0, kReadEvent)
  else if s.listening.map Prod.fst = some fd then s.listening.map fun l => (l.2, kReadEvent)
  else (s.server.closedAt fd).map fun closed =>
    (s.channel fd, if closed then kNoneEvent else kReadEvent)

/-- The fds of the loop and of the listening socket. -/
def Reserved (s : Serving H) (fd : Fd) : Prop :=
  fd = s.wakeupFd ∨ s.listening.map Prod.fst = some fd

/-- Whose the channel on `fd` should be. -/
def ownerOf (s : Serving H) (fd : Fd) : Owner :=
  if fd = s.wakeupFd then .wakeup
  else if s.listening.map Prod.fst = some fd then .listener
  else .connection fd

structure Inv (s : Serving H) : Prop where
  server : s.server.Inv
  represents : Represents s.poll s.table
  owner : ∀ {fd c events}, s.table fd = some (c, events) → s.owner c = s.ownerOf fd
  apart : s.listening.map Prod.fst ≠ some s.wakeupFd
  reserved : ∀ {fd}, s.Reserved fd → s.server.connections fd = none ∧ s.server.isOpen fd = true
  nodup : s.fds.Nodup
  fds : ∀ fd, fd ∈ s.fds ↔ s.server.connections fd ≠ none

theorem table_of_not_reserved (h : ¬ s.Reserved fd) : s.table fd =
    (s.server.closedAt fd).map fun closed =>
      (s.channel fd, if closed then kNoneEvent else kReadEvent) := by
  obtain ⟨hw, hl⟩ := not_or.mp h
  rw [table, if_neg hw, if_neg hl]

theorem table_of_reserved (hw : s'.wakeupFd = s.wakeupFd) (hl : s'.listening = s.listening)
    (h : s.Reserved fd) : s'.table fd = s.table fd := by
  unfold table
  rw [hw, hl]
  split
  · rfl
  · next hne => rw [if_pos (h.resolve_left hne), if_pos (h.resolve_left hne)]

theorem ownerOf_of_not_reserved (h : ¬ s.Reserved fd) : s.ownerOf fd = .connection fd := by
  obtain ⟨hw, hl⟩ := not_or.mp h
  rw [ownerOf, if_neg hw, if_neg hl]

theorem Inv.not_reserved (hs : s.Inv) (hc : s.server.connections fd ≠ none) : ¬ s.Reserved fd :=
  fun h => hc (hs.reserved h).1

theorem Inv.table_connection (hs : s.Inv) {d : Session H} (hd : s.server.connections fd = some d) :
    s.table fd = some (s.channel fd, if d.closed then kNoneEvent else kReadEvent) := by
  have hne : s.server.connections fd ≠ none := by
    rw [hd]
    exact Option.some_ne_none d
  rw [table_of_not_reserved (hs.not_reserved hne), HttpServer.closedAt_of_some hd, Option.map_some]

theorem Inv.deref_connection (hs : s.Inv) (hc : s.server.connections fd ≠ none) :
    ∃ ch, s.poll.deref (s.channel fd) = some ch ∧ ch.fd = fd := by
  obtain ⟨d, hd⟩ := Option.ne_none_iff_exists'.mp hc
  obtain ⟨ch, hch, hfd, -⟩ := hs.represents.entry.mp (hs.table_connection hd)
  exact ⟨ch, hch, hfd⟩

/-! ## One connection changes -/

/-- What `s'` shares with `s` while a connection comes, changes or goes. -/
structure Beside (s s' : Serving H) : Prop where
  wakeupFd : s'.wakeupFd = s.wakeupFd
  listening : s'.listening = s.listening
  stale : s'.stale = s.stale
  stage : s'.stage = s.stage
  broken : s'.broken = s.broken

theorem Beside.refl (s : Serving H) : Beside s s := ⟨rfl, rfl, rfl, rfl, rfl⟩

theorem Beside.trans {s₁ s₂ s₃ : Serving H} (h : Beside s₁ s₂) (h' : Beside s₂ s₃) :
    Beside s₁ s₃ :=
  ⟨h'.wakeupFd.trans h.wakeupFd, h'.listening.trans h.listening, h'.stale.trans h.stale,
    h'.stage.trans h.stage, h'.broken.trans h.broken⟩

theorem Beside.reserved (h : Beside s s') (fd : Fd) : s'.Reserved fd ↔ s.Reserved fd := by
  unfold Reserved
  rw [h.wakeupFd, h.listening]

theorem Beside.ownerOf (h : Beside s s') : s'.ownerOf = s.ownerOf := by
  funext fd
  unfold Serving.ownerOf
  rw [h.wakeupFd, h.listening]

/-- From `s` to `s'` the connection on `fd` becomes `closed`, or none, and the others stay. -/
structure Moves (s s' : Serving H) (fd : Fd) (closed : Option Bool) : Prop where
  beside : Beside s s'
  free : ¬ s.Reserved fd
  channel : ∀ fd' ≠ fd, s'.channel fd' = s.channel fd'
  closedAt : s'.server.closedAt = Function.update s.server.closedAt fd closed

theorem Moves.table {closed : Option Bool} (h : Moves s s' fd closed) :
    s'.table = Function.update s.table fd (closed.map fun closed =>
      (s'.channel fd, if closed then kNoneEvent else kReadEvent)) := by
  funext fd'
  by_cases hfd : fd' = fd
  · subst hfd
    rw [Function.update_self, table_of_not_reserved (mt (h.beside.reserved _).mp h.free),
      h.closedAt, Function.update_self]
  · rw [Function.update_of_ne hfd]
    by_cases hr : s.Reserved fd'
    · exact table_of_reserved h.beside.wakeupFd h.beside.listening hr
    · rw [table_of_not_reserved hr, table_of_not_reserved (mt (h.beside.reserved _).mp hr),
        h.closedAt, Function.update_of_ne hfd, h.channel fd' hfd]

theorem Inv.moves {closed : Option Bool} (hs : s.Inv) (h : Moves s s' fd closed)
    (hserver : s'.server.Inv) (hrep : Represents s'.poll s'.table)
    (howner : ∀ {fd c events}, s.table fd = some (c, events) → s'.owner c = s.owner c)
    (hself : closed ≠ none → s'.owner (s'.channel fd) = .connection fd)
    (hopen : ∀ fd' ≠ fd, s'.server.isOpen fd' = s.server.isOpen fd')
    (hnodup : s'.fds.Nodup) (hfds : ∀ fd', fd' ∈ s'.fds ↔ s'.server.connections fd' ≠ none) :
    s'.Inv where
  server := hserver
  represents := hrep
  owner {fd' d events} ht := by
    rw [h.beside.ownerOf]
    rw [h.table] at ht
    by_cases hfd : fd' = fd
    · subst hfd
      rw [Function.update_self, Option.map_eq_some_iff] at ht
      obtain ⟨b, hb, he⟩ := ht
      rw [ownerOf_of_not_reserved h.free, ← (Prod.mk.inj he).1]
      exact hself (by rw [hb]; exact Option.some_ne_none b)
    · rw [Function.update_of_ne hfd] at ht
      rw [howner ht]
      exact hs.owner ht
  apart := by
    rw [h.beside.wakeupFd, h.beside.listening]
    exact hs.apart
  reserved {fd'} hr := by
    have hr := (h.beside.reserved fd').mp hr
    have hfd : fd' ≠ fd := fun he => h.free (he ▸ hr)
    obtain ⟨hnone, hisOpen⟩ := hs.reserved hr
    rw [hopen fd' hfd]
    refine ⟨HttpServer.closedAt_eq_none.mp ?_, hisOpen⟩
    rw [h.closedAt, Function.update_of_ne hfd]
    exact HttpServer.closedAt_eq_none.mpr hnone
  nodup := hnodup
  fds := hfds

/-! ## Closing and serving -/

/-- What no callback of a connection changes. -/
structure Keeps (s s' : Serving H) : Prop extends Beside s s' where
  channel : s'.channel = s.channel
  owner : s'.owner = s.owner
  fds : s'.fds = s.fds
  isOpen : s'.server.isOpen = s.server.isOpen
  length : s'.poll.heap.length = s.poll.heap.length
  live : ∀ d, (s'.poll.deref d).isSome = (s.poll.deref d).isSome
  connections : ∀ fd, s'.server.connections fd = none ↔ s.server.connections fd = none

theorem Keeps.refl (s : Serving H) : Keeps s s :=
  ⟨.refl s, rfl, rfl, rfl, rfl, rfl, fun _ => rfl, fun _ => Iff.rfl⟩

theorem Keeps.trans {s₁ s₂ s₃ : Serving H} (h : Keeps s₁ s₂) (h' : Keeps s₂ s₃) : Keeps s₁ s₃ :=
  ⟨h.toBeside.trans h'.toBeside, h'.channel.trans h.channel, h'.owner.trans h.owner,
    h'.fds.trans h.fds, h'.isOpen.trans h.isOpen, h'.length.trans h.length,
    fun d => (h'.live d).trans (h.live d), fun fd => (h'.connections fd).trans (h.connections fd)⟩

/-- The connection on `fd` is closed in the server, and its channel disabled. -/
theorem Inv.close (hs : s.Inv) (hlive : s.server.isLive fd = true) {server : HttpServer H}
    (hserver : server.Inv) (hisOpen : server.isOpen = s.server.isOpen)
    (hclosed : server.closedAt = Function.update s.server.closedAt fd (some true)) :
    Inv ({ s with server }.disable (s.channel fd)) ∧
      Keeps s ({ s with server }.disable (s.channel fd)) ∧
      ({ s with server }.disable (s.channel fd)).server = server := by
  have hentry := HttpServer.isLive_iff.mp hlive
  have hsome : s.server.connections fd ≠ none := by
    intro hnone
    rw [HttpServer.closedAt_eq_none.mpr hnone] at hentry
    cases hentry
  obtain ⟨ch, hch, hfd⟩ := hs.deref_connection hsome
  have hdisable : { s with server }.disable (s.channel fd) =
      { s with server, poll := s.poll.disableAll (s.channel fd) ch } := by
    rw [disable, hch]
  have hconn (fd' : Fd) : server.connections fd' = none ↔ s.server.connections fd' = none := by
    rw [← HttpServer.closedAt_eq_none, ← HttpServer.closedAt_eq_none, hclosed]
    by_cases hne : fd' = fd
    · rw [hne, Function.update_self, hentry]
      exact iff_of_false (Option.some_ne_none _) (Option.some_ne_none _)
    · rw [Function.update_of_ne hne]
  rw [hdisable]
  have hmoves : Moves s { s with server, poll := s.poll.disableAll (s.channel fd) ch } fd
      (some true) := ⟨⟨rfl, rfl, rfl, rfl, rfl⟩, hs.not_reserved hsome, fun _ _ => rfl, hclosed⟩
  refine ⟨hs.moves hmoves hserver ?_ (fun _ => rfl) (fun _ => ?_) (fun fd' _ => ?_) hs.nodup
    (fun fd' => ?_), ?_, rfl⟩
  · have hrep := hs.represents.update hch kNoneEvent
    rw [hfd] at hrep
    rw [hmoves.table]
    exact hrep
  · obtain ⟨d, hd⟩ := Option.ne_none_iff_exists'.mp hsome
    rw [hs.owner (hs.table_connection hd), ownerOf_of_not_reserved (hs.not_reserved hsome)]
  · rw [hisOpen]
  · rw [hs.fds fd']
    exact not_congr (hconn fd').symm
  · refine ⟨⟨rfl, rfl, rfl, rfl, rfl⟩, rfl, rfl, rfl, hisOpen, List.length_set .., fun d => ?_,
      hconn⟩
    by_cases hd : d = s.channel fd
    · have hself : (s.poll.disableAll (s.channel fd) ch).deref (s.channel fd) = _ :=
        deref_update_self hch kNoneEvent
      rw [hd, hself, hch]
      rfl
    · exact congrArg Option.isSome (deref_update_ne hd kNoneEvent)

theorem onClose_server (s : Serving H) (fd : Fd) : (s.onClose fd).server = s.server.onClose fd := by
  unfold onClose
  split
  · unfold disable
    split <;> rfl
  · next hlive =>
    cases hc : s.server.connections fd with
    | none => rw [HttpServer.onClose, hc]
    | some d =>
      cases hd : d.closed with
      | true => exact (HttpServer.onClose_of_closed hc hd).symm
      | false => exact absurd (HttpServer.isLive_of_open hc hd) hlive

theorem onMessage_server (s : Serving H) (fd : Fd) (out : Outside H) :
    (s.onMessage fd out).server = s.server.onMessage fd out.env out.read out.now := by
  unfold onMessage
  simp only
  split
  · unfold disable
    split <;> rfl
  · rfl

theorem Inv.onClose (hs : s.Inv) (fd : Fd) : (s.onClose fd).Inv ∧ Keeps s (s.onClose fd) := by
  unfold Serving.onClose
  split
  · next hlive =>
    obtain ⟨h, hkeeps, -⟩ := hs.close hlive (hs.server.onClose fd)
      (HttpServer.isOpen_onClose ..) (HttpServer.closedAt_onClose hlive)
    exact ⟨h, hkeeps⟩
  · exact ⟨hs, .refl s⟩

/-- Only what is known of the connections changes, not which are there and open. -/
theorem Inv.same (hs : s.Inv) {server : HttpServer H} (hserver : server.Inv)
    (hisOpen : server.isOpen = s.server.isOpen) (hclosed : server.closedAt = s.server.closedAt) :
    Inv { s with server } ∧ Keeps s { s with server } := by
  have hconn (fd : Fd) : server.connections fd = none ↔ s.server.connections fd = none := by
    rw [← HttpServer.closedAt_eq_none, hclosed, HttpServer.closedAt_eq_none]
  have htable : table { s with server } = s.table := by
    unfold table
    rw [hclosed]
  refine ⟨⟨hserver, by rw [htable]; exact hs.represents, fun ht => hs.owner (htable ▸ ht), hs.apart,
    fun hr => ?_, hs.nodup, fun fd => ?_⟩, ⟨⟨rfl, rfl, rfl, rfl, rfl⟩, rfl, rfl, rfl, hisOpen, rfl,
    fun _ => rfl, hconn⟩⟩
  · obtain ⟨hnone, hopen⟩ := hs.reserved hr
    exact ⟨(hconn _).mpr hnone, by rw [hisOpen]; exact hopen⟩
  · rw [hs.fds fd]
    exact not_congr (hconn fd).symm

theorem Inv.onMessage (hs : s.Inv) (fd : Fd) (out : Outside H) :
    (s.onMessage fd out).Inv ∧ Keeps s (s.onMessage fd out) := by
  have hclosed := HttpServer.closedAt_onMessage s.server fd out.env out.read out.now
  have hserver := hs.server.onMessage fd out.env out.read out.now
  have hisOpen := HttpServer.isOpen_onMessage s.server fd out.env out.read out.now
  unfold Serving.onMessage
  simp only
  split
  · next hcloses =>
    rw [if_pos hcloses] at hclosed
    obtain ⟨h, hkeeps, -⟩ := hs.close (Bool.and_eq_true_iff.mp hcloses).1 hserver hisOpen hclosed
    exact ⟨h, hkeeps⟩
  · next hstays =>
    rw [if_neg hstays] at hclosed
    exact hs.same hserver hisOpen hclosed

/-! ## Coming and going -/

theorem length_construct (poll : PollState) (fd : Int) :
    ((poll.construct fd).enableReading poll.heap.length { fd }).heap.length =
      poll.heap.length + 1 :=
  (List.length_set ..).trans List.length_append

theorem deref_watch {d : Nat} (poll : PollState) (fd : Int) (hd : d ≠ poll.heap.length) :
    ((poll.construct fd).enableReading poll.heap.length { fd }).deref d = poll.deref d :=
  (deref_update_ne hd _).trans (Represents.deref_construct_ne hd)

theorem Inv.table_free (hs : s.Inv) (hfd : s.server.isOpen fd = false) :
    s.table fd = none ∧ ¬ s.Reserved fd := by
  have hfree : ¬ s.Reserved fd := fun hr => by
    rw [(hs.reserved hr).2] at hfd
    cases hfd
  refine ⟨?_, hfree⟩
  rw [table_of_not_reserved hfree, HttpServer.closedAt_eq_none.mpr (hs.server.free hfd).1]
  rfl

theorem Inv.lt_length (hs : s.Inv) {events : BitVec 32} (ht : s.table fd = some (c, events)) :
    c < s.poll.heap.length := by
  obtain ⟨ch, hch, -⟩ := hs.represents.entry.mp ht
  exact lt_of_deref hch

theorem Inv.onAccept [HeadMemory] (hs : s.Inv) {out : Outside H}
    (hfree : ∀ fd ∈ out.accepted, s.server.isOpen fd = false) :
    (s.onAccept out).Inv ∧ Beside s (s.onAccept out) := by
  unfold Serving.onAccept
  cases hfd : out.accepted with
  | none => exact ⟨hs, .refl s⟩
  | some fd =>
    have hclose := hfree fd hfd
    obtain ⟨htable, hnot⟩ := hs.table_free hclose
    have hnone := (hs.server.free hclose).1
    have hbeside : Beside s ({ s with
        server := s.server.onAccept fd out.now
        fds := s.fds ++ [fd]
        channel := Function.update s.channel fd s.poll.heap.length }.watch fd (.connection fd)) :=
      ⟨rfl, rfl, rfl, rfl, rfl⟩
    have hmoves : Moves s _ fd (some false) := ⟨hbeside, hnot,
      fun fd' hne => Function.update_of_ne hne .., HttpServer.closedAt_onAccept ..⟩
    refine ⟨hs.moves hmoves (hs.server.onAccept hclose out.now) ?_ (fun {fd' d events} ht => ?_)
      (fun _ => ?_) (fun fd' hne => ?_) ?_ (fun fd' => ?_), hbeside⟩
    · rw [hmoves.table]
      have hself : Function.update s.channel fd s.poll.heap.length fd = s.poll.heap.length :=
        Function.update_self ..
      simp only [watch, hself, Option.map_some, Bool.false_eq_true, if_false]
      exact hs.represents.construct htable
    · exact Function.update_of_ne (Nat.ne_of_lt (hs.lt_length ht)) ..
    · simp only [watch, Function.update_self]
    · exact Function.update_of_ne hne ..
    · refine List.nodup_append.mpr ⟨hs.nodup, List.nodup_singleton fd, fun a ha b hb hab => ?_⟩
      rw [List.mem_singleton] at hb
      exact (hs.fds a).mp ha (by rw [hab, hb, hnone])
    · change fd' ∈ s.fds ++ [fd] ↔ _
      rw [List.mem_append, List.mem_singleton, hs.fds]
      by_cases hne : fd' = fd
      · rw [hne]
        refine iff_of_true (.inr rfl) ?_
        exact fun h => Option.some_ne_none _ ((HttpServer.connections_put_self ..).symm.trans h)
      · have hsame : (s.server.onAccept fd out.now).connections fd' = s.server.connections fd' :=
          HttpServer.connections_put_ne hne ..
        simp only [watch, hsame, hne, or_false]

theorem Inv.task (hs : s.Inv) {tasks : List Fd} (ht : s.server.tasks = fd :: tasks) :
    Inv (erase { s with server := { s.server with tasks } } fd) ∧
      Beside s (erase { s with server := { s.server with tasks } } fd) ∧
      (erase { s with server := { s.server with tasks } } fd).server =
        HttpServer.erase { s.server with tasks } fd := by
  obtain ⟨d, hd, -⟩ := hs.server.queued.mp (ht ▸ List.mem_cons_self)
  have hsome : s.server.connections fd ≠ none := by
    rw [hd]
    exact Option.some_ne_none d
  obtain ⟨ch, hch, hfd⟩ := hs.deref_connection hsome
  have herase : erase { s with server := { s.server with tasks } } fd =
      { s with
        server := HttpServer.erase { s.server with tasks } fd
        fds := s.fds.erase fd
        poll := s.poll.destroy (s.channel fd) ch } := by
    unfold erase
    simp only [hd]
    rw [destroy, hch]
  rw [herase]
  obtain ⟨hnone, hother, -⟩ := HttpServer.erase_spec (s := { s.server with tasks }) hd
  have hmoves : Moves s { s with
      server := HttpServer.erase { s.server with tasks } fd
      fds := s.fds.erase fd
      poll := s.poll.destroy (s.channel fd) ch } fd none :=
    ⟨⟨rfl, rfl, rfl, rfl, rfl⟩, hs.not_reserved hsome, fun _ _ => rfl,
      HttpServer.closedAt_erase (s := { s.server with tasks }) hd⟩
  refine ⟨hs.moves hmoves (hs.server.task ht) ?_ (fun _ => rfl) (fun h => absurd rfl h)
    (fun fd' hne => (hother fd' hne).2) (hs.nodup.erase fd) (fun fd' => ?_), hmoves.beside, rfl⟩
  · have hrep := hs.represents.destroy hch
    rw [hfd] at hrep
    rw [hmoves.table]
    exact hrep
  · change fd' ∈ s.fds.erase fd ↔ _
    rw [hs.nodup.mem_erase_iff, hs.fds]
    by_cases hne : fd' = fd
    · rw [hne]
      exact iff_of_false (fun h => h.1 rfl) (fun h => h hnone)
    · rw [and_iff_right hne]
      exact not_congr (by rw [(hother fd' hne).1])

end Serving

end Hound.Http
