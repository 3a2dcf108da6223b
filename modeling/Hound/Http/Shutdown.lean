import Hound.Http.ServingInv

/-!
# `HttpServer::stop`

Its loop cancels the timer of each connection, disables its channel and closes its socket
(`Shuts`), `connections_.clear()` destroys them (`drop_foldl`), and then the listening channel
goes. In whatever order `connections_` is walked, no timeout is pending afterwards, no
connection is left and only the wakeup channel is registered (`Inv.stop`). The erases that were
queued stay in the queue.
-/

namespace Hound.Http

open Lib Reactor PollState

variable {H : Type}

theorem HttpServer.cancelTimer_spec {wheel : TimerWheel Timeout} (hw : wheel.Inv) (timer : Int) :
    (HttpServer.cancelTimer wheel timer).Inv ∧
      ∀ t ∈ (HttpServer.cancelTimer wheel timer).pending, t ∈ wheel.pending ∧ t.id ≠ timer := by
  unfold HttpServer.cancelTimer
  split
  · exact ⟨hw.cancel timer, fun t ht => (TimerWheel.mem_pending_cancel hw).mp ht⟩
  · next hzero =>
    refine ⟨hw, fun t ht => ⟨ht, ?_⟩⟩
    have hpos := hw.id_pos t ht
    rw [not_not.mp hzero]
    omega

namespace Serving

variable {s s' : Serving H} {fd : Fd} {c : Nat} {t : ChannelTable}

/-- `t` has a channel for every connection on one of `fds`. -/
def Covers (s : Serving H) (t : ChannelTable) (fds : List Fd) : Prop :=
  ∀ fd ∈ fds, s.server.connections fd ≠ none ∧ ∃ events, t fd = some (s.channel fd, events)

/-- The loop of `stop` over `order` leads from `s`, with channels `t`, to `s'`. -/
structure Shuts (s s' : Serving H) (t : ChannelTable) (order : List Fd) : Prop where
  beside : Beside s s'
  owner : s'.owner = s.owner
  length : s'.poll.heap.length = s.poll.heap.length
  tasks : s'.server.tasks = s.server.tasks
  dangling : s'.server.dangling = s.server.dangling
  connections : s'.server.connections = s.server.connections
  wheel : s'.server.wheel.Inv
  pending : ∀ u ∈ s'.server.wheel.pending, u ∈ s.server.wheel.pending ∧
    ∀ fd ∈ order, ∀ d, s.server.connections fd = some d → u.id ≠ d.timeoutTimer
  isOpen : ∀ fd, s'.server.isOpen fd = (decide (fd ∉ order) && s.server.isOpen fd)
  channel : s'.channel = s.channel
  represents : ∃ t', Represents s'.poll t' ∧ (∀ fd ∉ order, t' fd = t fd) ∧
    ∀ fd ∈ order, ∃ events, t' fd = some (s.channel fd, events)

theorem shuts_cons {order : List Fd} (hw : s.server.wheel.Inv) (ht : Represents s.poll t)
    (hc : s.Covers t (fd :: order))
    (ih : ∀ {s₁ : Serving H} {t₁ : ChannelTable}, s₁.server.wheel.Inv → Represents s₁.poll t₁ →
      s₁.Covers t₁ order → Shuts s₁ (order.foldl shut s₁) t₁ order) :
    Shuts s ((fd :: order).foldl shut s) t (fd :: order) := by
  obtain ⟨hsome, events, hentry⟩ := hc fd List.mem_cons_self
  obtain ⟨d, hd⟩ := Option.ne_none_iff_exists'.mp hsome
  obtain ⟨ch, hch, rfl, -⟩ := ht.entry.mp hentry
  have hshut : s.shut ch.fd = { s with
      server := { s.server with
        wheel := HttpServer.cancelTimer s.server.wheel d.timeoutTimer
        isOpen := Function.update s.server.isOpen ch.fd false }
      poll := s.poll.disableAll (s.channel ch.fd) ch } := by
    unfold shut
    rw [hd]
    simp only
    rw [disable, hch]
  obtain ⟨hw₁, hpending⟩ := HttpServer.cancelTimer_spec hw d.timeoutTimer
  have hcovers : (s.shut ch.fd).Covers (Function.update t ch.fd
      (some (s.channel ch.fd, kNoneEvent))) order := by
    intro fd' hfd'
    obtain ⟨hsome', events', hentry'⟩ := hc fd' (List.mem_cons_of_mem _ hfd')
    rw [hshut]
    refine ⟨hsome', ?_⟩
    by_cases hne : fd' = ch.fd
    · rw [hne]
      exact ⟨kNoneEvent, Function.update_self ..⟩
    · rw [Function.update_of_ne hne]
      exact ⟨events', hentry'⟩
  have ih := ih (by rw [hshut]; exact hw₁) (by rw [hshut]; exact ht.update hch kNoneEvent) hcovers
  rw [List.foldl_cons]
  rw [hshut] at ih ⊢
  obtain ⟨t', ht', hother, horder⟩ := ih.represents
  refine ⟨⟨ih.beside.wakeupFd, ih.beside.listening, ih.beside.stale, ih.beside.stage,
    ih.beside.broken⟩, ih.owner, ih.length.trans (List.length_set ..), ih.tasks, ih.dangling,
    ih.connections, ih.wheel, fun u hu => ?_, fun fd' => ?_, ih.channel, t', ht',
    fun fd' hfd' => ?_, fun fd' hfd' => ?_⟩
  · obtain ⟨hu, hothers⟩ := ih.pending u hu
    obtain ⟨hu, hid⟩ := hpending u hu
    refine ⟨hu, fun fd' hfd' d' hd' => ?_⟩
    rcases List.mem_cons.mp hfd' with rfl | hfd'
    · rw [hd, Option.some.injEq] at hd'
      rw [← hd']
      exact hid
    · exact hothers fd' hfd' d' hd'
  · rw [ih.isOpen]
    simp only
    by_cases hne : fd' = ch.fd
    · rw [hne, Function.update_self]
      simp
    · rw [Function.update_of_ne hne]
      simp [hne]
  · obtain ⟨hne, hnot⟩ := not_or.mp (mt List.mem_cons.mpr hfd')
    rw [hother fd' hnot, Function.update_of_ne hne]
  · by_cases hin : fd' ∈ order
    · exact horder fd' hin
    · obtain rfl := (List.mem_cons.mp hfd').resolve_right hin
      rw [hother ch.fd hin, Function.update_self]
      exact ⟨kNoneEvent, rfl⟩

theorem shut_foldl : ∀ {order : List Fd} {s : Serving H} {t : ChannelTable},
    s.server.wheel.Inv → Represents s.poll t → s.Covers t order →
      Shuts s (order.foldl shut s) t order
  | [], s, t, hw, ht, _ => ⟨.refl s, rfl, rfl, rfl, rfl, rfl, hw,
      fun u hu => ⟨hu, fun fd hfd => by cases hfd⟩, fun fd => by simp, rfl, t, ht, fun _ _ => rfl,
      fun fd hfd => by cases hfd⟩
  | _ :: _, _, _, hw, ht, hc => shuts_cons hw ht hc shut_foldl

theorem length_destroy (poll : PollState) (c : Nat) (ch : Channel) :
    (poll.destroy c ch).heap.length = poll.heap.length := by
  unfold PollState.destroy PollState.remove
  split <;> simp [PollState.put, PollState.removeChannel]

theorem disable_destroy {events : BitVec 32} (ht : Represents s.poll t)
    (hc : t fd = some (c, events)) : ∃ poll, (s.disable c).destroy c = { s with poll } ∧
      poll.heap.length = s.poll.heap.length ∧ Represents poll (Function.update t fd none) := by
  obtain ⟨ch, hch, rfl, -⟩ := ht.entry.mp hc
  have hch' := deref_update_self hch kNoneEvent
  have hgone := (ht.update hch kNoneEvent).destroy hch'
  rw [Function.update_idem] at hgone
  refine ⟨_, ?_, (length_destroy ..).trans (List.length_set ..), hgone⟩
  unfold disable
  rw [hch]
  simp only
  unfold destroy disableAll
  simp only
  rw [hch']

theorem drop_foldl : ∀ {order : List Fd} {s : Serving H} {t : ChannelTable}, order.Nodup →
    Represents s.poll t → (∀ fd ∈ order, ∃ events, t fd = some (s.channel fd, events)) →
    ∃ poll, order.foldl drop s = { s with
        server := { s.server with
          connections := fun fd => if fd ∈ order then none else s.server.connections fd }
        poll } ∧
      poll.heap.length = s.poll.heap.length ∧
      Represents poll fun fd => if fd ∈ order then none else t fd
  | [], s, t, _, ht, _ => ⟨s.poll, by simp, rfl, by simpa using ht⟩
  | fd :: order, s, t, hnodup, ht, hc => by
    obtain ⟨hnot, hrest⟩ := List.nodup_cons.mp hnodup
    obtain ⟨events, hentry⟩ := hc fd List.mem_cons_self
    obtain ⟨ch, hch, rfl, -⟩ := ht.entry.mp hentry
    have hdrop : s.drop ch.fd = { s with
        server := { s.server with
          connections := Function.update s.server.connections ch.fd none }
        poll := s.poll.destroy (s.channel ch.fd) ch } := by
      unfold drop
      rw [destroy, hch]
    have hc₁ : ∀ fd ∈ order, ∃ events,
        Function.update t ch.fd none fd = some (s.channel fd, events) := by
      intro fd hfd
      have hne : fd ≠ ch.fd := fun h => hnot (h ▸ hfd)
      rw [Function.update_of_ne hne]
      exact hc fd (List.mem_cons_of_mem _ hfd)
    obtain ⟨poll, hfold, hlen, hrep⟩ := drop_foldl (s := s.drop ch.fd) hrest
      (by rw [hdrop]; exact ht.destroy hch) (by rw [hdrop]; exact hc₁)
    rw [List.foldl_cons, hfold, hdrop]
    rw [hdrop] at hlen
    have hif {α : Type} (f : Fd → Option α) : (fun fd => if fd ∈ order then none
        else Function.update f ch.fd none fd) = fun fd => if fd ∈ ch.fd :: order then none
        else f fd := by
      funext fd
      by_cases hne : fd = ch.fd
      · subst hne
        simp [hnot]
      · simp [hne]
    simp only [hif] at hrep ⊢
    exact ⟨poll, rfl, hlen.trans (length_destroy ..), hrep⟩

def wakeupTable (s : Serving H) : ChannelTable := fun fd =>
  if fd = s.wakeupFd then some (0, kReadEvent) else none

/-- What `stop` leaves of a running server. -/
structure Stopped (s s' : Serving H) : Prop where
  server : s'.server.Started
  represents : Represents s'.poll s'.wakeupTable
  table : s'.table = s'.wakeupTable
  fds : s'.fds = []
  listening : s'.listening = none
  stale : s'.stale = s.queue
  wakeupFd : s'.wakeupFd = s.wakeupFd
  stage : s'.stage = s.stage
  broken : s'.broken = s.broken
  owner : s'.owner = s.owner
  length : s'.poll.heap.length = s.poll.heap.length
  /-- The sockets of the connections and the listening one are closed, and no other. -/
  isOpen : ∀ fd, s'.server.isOpen fd = true ↔ s.server.isOpen fd = true ∧
    s.server.connections fd = none ∧ s.listening.map Prod.fst ≠ some fd

theorem table_wakeup (s : Serving H) : s.table s.wakeupFd = some (0, kReadEvent) := if_pos rfl

theorem Inv.table_listener (hs : s.Inv) {l : Fd × Nat} (hl : s.listening = some l) :
    s.table l.1 = some (l.2, kReadEvent) := by
  have hmap : s.listening.map Prod.fst = some l.1 := by rw [hl, Option.map_some]
  have hne : l.1 ≠ s.wakeupFd := by
    intro he
    exact hs.apart (hmap.trans (congrArg some he))
  rw [table, if_neg hne, if_pos hmap, hl, Option.map_some]

theorem Inv.table_cases (hs : s.Inv) {events : BitVec 32} (ht : s.table fd = some (c, events)) :
    (fd = s.wakeupFd ∧ c = 0) ∨ s.listening = some (fd, c) ∨
      (s.server.connections fd ≠ none ∧ c = s.channel fd) := by
  by_cases hw : fd = s.wakeupFd
  · rw [hw, table_wakeup, Option.some.injEq, Prod.mk.injEq] at ht
    exact .inl ⟨hw, ht.1.symm⟩
  · by_cases hl : s.listening.map Prod.fst = some fd
    · obtain ⟨l, hlistening, rfl⟩ := Option.map_eq_some_iff.mp hl
      rw [hs.table_listener hlistening, Option.some.injEq, Prod.mk.injEq] at ht
      exact .inr (.inl (by rw [hlistening, ← ht.1]))
    · rw [table_of_not_reserved (not_or.mpr ⟨hw, hl⟩), Option.map_eq_some_iff] at ht
      obtain ⟨b, hb, he⟩ := ht
      refine .inr (.inr ⟨fun hnone => ?_, (Prod.mk.inj he).1.symm⟩)
      rw [HttpServer.closedAt_eq_none.mpr hnone] at hb
      cases hb

/-- A timeout belongs to an open connection, so none outlives the loop of `stop`. -/
theorem Shuts.pending_eq_nil {order : List Fd} (h : Shuts s s' t order) (hs : s.Inv)
    (ho : ∀ fd, s.server.connections fd ≠ none → fd ∈ order) : s'.server.wheel.pending = [] := by
  refine List.eq_nil_iff_forall_not_mem.mpr fun u hu => ?_
  obtain ⟨hu, hothers⟩ := h.pending u hu
  obtain ⟨d, hd, -, -, hid⟩ := hs.server.timer u hu
  have hsome : s.server.connections u.callback.fd ≠ none := by
    rw [hd]
    exact Option.some_ne_none d
  exact hothers _ (ho _ hsome) d hd hid.symm

theorem Inv.mem_order (hs : s.Inv) {order : List Fd} (ho : order.Perm s.fds) (fd : Fd) :
    fd ∈ order ↔ s.server.connections fd ≠ none := ho.mem_iff.trans (hs.fds fd)

/-- Without the channels of the connections and of the listening socket, the wakeup channel is
left. -/
theorem Inv.wakeup_left (hs : s.Inv) {l : Fd × Nat} (hl : s.listening = some l) {order : List Fd}
    (ho : order.Perm s.fds) (ht : ∀ fd ∉ order, t fd = s.table fd) :
    Function.update (fun fd => if fd ∈ order then none else t fd) l.1 none = s.wakeupTable := by
  funext fd
  rw [wakeupTable]
  by_cases hw : fd = s.wakeupFd
  · have hne : fd ≠ l.1 := fun he => hs.apart (by rw [hl, Option.map_some, ← he, hw])
    have hnot : fd ∉ order := fun h => (hs.mem_order ho fd).mp h (hs.reserved (.inl hw)).1
    rw [if_pos hw, Function.update_of_ne hne, if_neg hnot, ht fd hnot, hw, table_wakeup]
  · rw [if_neg hw]
    by_cases hne : fd = l.1
    · rw [hne, Function.update_self]
    · rw [Function.update_of_ne hne]
      split
      · rfl
      · next hnot =>
        rw [ht fd hnot]
        refine Option.eq_none_iff_forall_not_mem.mpr fun e he => ?_
        obtain ⟨hw', -⟩ | hl' | ⟨hsome, -⟩ := hs.table_cases (Option.mem_def.mp he)
        · exact hw hw'
        · rw [hl, Option.some.injEq] at hl'
          exact hne (by rw [hl'])
        · exact hnot ((hs.mem_order ho fd).mpr hsome)

/-- The state that `stop` leaves, and the channels in it. -/
theorem Inv.stop_eq (hs : s.Inv) {l : Fd × Nat} (hl : s.listening = some l) {order : List Fd}
    (ho : order.Perm s.fds) :
    Shuts s (order.foldl shut s) s.table order ∧ ∃ poll,
      s.stop order = { order.foldl shut s with
        server := { (order.foldl shut s).server with
          connections := fun _ => none
          isOpen := Function.update (order.foldl shut s).server.isOpen l.1 false
          tasks := [] }
        poll
        fds := []
        listening := none
        stale := (order.foldl shut s).stale ++ (order.foldl shut s).server.tasks } ∧
      poll.heap.length = s.poll.heap.length ∧ Represents poll s.wakeupTable := by
  have hcovers : s.Covers s.table order := by
    intro fd hfd
    have hsome := (hs.mem_order ho fd).mp hfd
    obtain ⟨d, hd⟩ := Option.ne_none_iff_exists'.mp hsome
    exact ⟨hsome, _, hs.table_connection hd⟩
  have hshuts := shut_foldl hs.server.wheel hs.represents hcovers
  obtain ⟨t₁, ht₁, hother, horder⟩ := hshuts.represents
  obtain ⟨poll, hdrop, hlength, hrep⟩ := drop_foldl (ho.nodup_iff.mpr hs.nodup) ht₁
    (by rw [hshuts.channel]; exact horder)
  have hlistener : l.1 ∉ order := fun h => by
    have hreserved : s.Reserved l.1 := .inr (by rw [hl, Option.map_some])
    exact (hs.mem_order ho l.1).mp h (hs.reserved hreserved).1
  have hentry : (if l.1 ∈ order then none else t₁ l.1) = some (l.2, kReadEvent) := by
    rw [if_neg hlistener, hother l.1 hlistener, hs.table_listener hl]
  obtain ⟨poll', hclosed, hlength', hgone⟩ := disable_destroy (s := order.foldl drop _)
    (by rw [hdrop]; exact hrep) hentry
  have hnone (fd : Fd) : (if fd ∈ order then none else
      (order.foldl shut s).server.connections fd) = none := by
    split
    · rfl
    · next hnot =>
      rw [hshuts.connections]
      exact not_not.mp (mt (hs.mem_order ho fd).mpr hnot)
  refine ⟨hshuts, poll', ?_, ?_, hs.wakeup_left hl ho hother ▸ hgone⟩
  · unfold Serving.stop
    rw [hl]
    simp only
    rw [hclosed, hdrop]
    simp only [hnone]
  · rw [hdrop] at hlength'
    exact hlength'.trans (hlength.trans hshuts.length)

/-- **`stop`**, for every order in which `connections_` is walked. -/
theorem Inv.stop (hs : s.Inv) {l : Fd × Nat} (hl : s.listening = some l) {order : List Fd}
    (ho : order.Perm s.fds) : Stopped s (s.stop order) := by
  obtain ⟨hshuts, poll, hstop, hlength, hrep⟩ := hs.stop_eq hl ho
  have hsame : (s.stop order).wakeupTable = s.wakeupTable := by
    rw [hstop]
    unfold wakeupTable
    rw [hshuts.beside.wakeupFd]
  rw [hstop] at hsame ⊢
  constructor
  case server =>
    refine ⟨hshuts.wheel, hshuts.pending_eq_nil hs fun fd => (hs.mem_order ho fd).mpr,
      fun _ => rfl, rfl, ?_⟩
    exact hshuts.dangling.trans hs.server.dangling
  case represents =>
    rw [hsame]
    exact hrep
  case table => rfl
  case fds => rfl
  case listening => rfl
  case stale => rw [hshuts.beside.stale, hshuts.tasks, queue]
  case wakeupFd => rw [hshuts.beside.wakeupFd]
  case stage => rw [hshuts.beside.stage]
  case broken => rw [hshuts.beside.broken]
  case owner => rw [hshuts.owner]
  case length => exact hlength
  case isOpen =>
    intro fd
    simp only
    rw [hl, Option.map_some]
    by_cases hne : fd = l.1
    · rw [hne, Function.update_self]
      simp
    · rw [Function.update_of_ne hne, hshuts.isOpen, Bool.and_eq_true, decide_eq_true_eq,
        hs.mem_order ho, not_not]
      constructor
      · rintro ⟨hfd, hisOpen⟩
        exact ⟨hisOpen, hfd, fun h => hne (Option.some.inj h).symm⟩
      · rintro ⟨hisOpen, hfd, -⟩
        exact ⟨hfd, hisOpen⟩

theorem Stopped.live_iff (h : Stopped s s') (d : Nat) : (s'.poll.deref d).isSome ↔ d = 0 := by
  constructor
  · intro hd
    obtain ⟨ch, hch⟩ := Option.isSome_iff_exists.mp hd
    have ht := h.represents.of_deref hch
    unfold wakeupTable at ht
    split at ht
    · exact (Prod.mk.inj (Option.some.inj ht)).1.symm
    · cases ht
  · rintro rfl
    exact h.represents.isSome_deref (if_pos rfl : s'.wakeupTable s'.wakeupFd = _)

theorem Stopped.inv (h : Stopped s s') (hs : s.Inv) : s'.Inv where
  server := h.server.inv
  represents := by
    rw [h.table]
    exact h.represents
  owner {fd c events} ht := by
    rw [h.table, wakeupTable] at ht
    split at ht
    · next hw =>
      obtain rfl := (Prod.mk.inj (Option.some.inj ht)).1
      rw [h.owner, hs.owner s.table_wakeup, ownerOf, ownerOf, if_pos rfl, if_pos hw]
    · cases ht
  apart := by
    rw [h.listening]
    exact (Option.some_ne_none _).symm
  reserved {fd} hr := by
    refine ⟨h.server.connections fd, ?_⟩
    have hw : fd = s.wakeupFd := by
      rcases hr with hr | hr
      · rw [hr, h.wakeupFd]
      · rw [h.listening] at hr
        cases hr
    obtain ⟨hnone, hisOpen⟩ := hs.reserved (.inl hw)
    rw [h.isOpen]
    exact ⟨hisOpen, hnone, hw ▸ hs.apart⟩
  nodup := by
    rw [h.fds]
    exact List.nodup_nil
  fds fd := by
    rw [h.fds, h.server.connections]
    exact iff_of_false List.not_mem_nil fun hne => hne rfl

end Serving

end Hound.Http
