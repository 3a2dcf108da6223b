import Hound.Http.HttpServer
import Hound.Http.ServeLoop
import Hound.Reactor.TimerWheelInv

/-!
# The life of a connection

`HttpServer.Inv` ties the connection table, the timer wheel and the task queue together:
an open connection has the one pending timeout that its `timeoutTimer` names, a closed
one has no timeout and one queued erase. Opening, refreshing and closing change all
three at one fd (`Inv.arm`, `Inv.release`), so the events keep it.
-/

namespace Hound.Http.HttpServer

open Lib Reactor

variable {H : Type} {s s' start : HttpServer H} {fd : Fd} {c : Session H}

structure Inv (s : HttpServer H) : Prop where
  wheel : s.wheel.Inv
  timer : ∀ t ∈ s.wheel.pending, ∃ c, s.connections t.callback.fd = some c ∧
    c.object = t.callback.object ∧ c.closed = false ∧ c.timeoutTimer = t.id
  live : ∀ {fd c}, s.connections fd = some c → c.closed = false →
    ∃ t ∈ s.wheel.pending, t.callback.fd = fd
  queued : ∀ {fd}, fd ∈ s.tasks ↔ ∃ c, s.connections fd = some c ∧ c.closed = true
  nodup : s.tasks.Nodup
  isOpen : ∀ {fd c}, s.connections fd = some c → s.isOpen fd = true
  dangling : s.dangling = false

@[simp] theorem connections_put_self (s : HttpServer H) (fd : Fd) (c : Session H) :
    (s.put fd c).connections fd = some c := Function.update_self ..

theorem connections_put_ne {fd' : Fd} (h : fd' ≠ fd) (s : HttpServer H) (c : Session H) :
    (s.put fd c).connections fd' = s.connections fd' := Function.update_of_ne h ..

/-! ## One fd -/

/-- `wheel` has the timeouts of `s` except those on `fd`. -/
structure Without (s : HttpServer H) (fd : Fd) (wheel : TimerWheel Timeout) : Prop where
  inv : wheel.Inv
  mem : ∀ t, t ∈ wheel.pending ↔ t ∈ s.wheel.pending ∧ t.callback.fd ≠ fd

theorem Inv.timer_iff (hs : s.Inv) (hc : s.connections fd = some c) (hopen : c.closed = false)
    {t : Timer Timeout} (ht : t ∈ s.wheel.pending) :
    t.callback.fd = fd ↔ t.id = c.timeoutTimer := by
  have hid {u : Timer Timeout} (hu : u ∈ s.wheel.pending) (hfd : u.callback.fd = fd) :
      u.id = c.timeoutTimer := by
    obtain ⟨d, hd, -, -, hid⟩ := hs.timer u hu
    rw [hfd, hc, Option.some.injEq] at hd
    rw [← hid, hd]
  refine ⟨hid ht, fun h => ?_⟩
  obtain ⟨u, hu, hfd⟩ := hs.live hc hopen
  have : t = u := List.inj_on_of_nodup_map hs.wheel.nodup ht hu (h.trans (hid hu hfd).symm)
  rw [this, hfd]

theorem Inv.timer_ne_zero (hs : s.Inv) (hc : s.connections fd = some c)
    (hopen : c.closed = false) : c.timeoutTimer ≠ 0 := by
  obtain ⟨t, ht, hfd⟩ := hs.live hc hopen
  have := hs.wheel.id_pos t ht
  rw [(hs.timer_iff hc hopen ht).mp hfd] at this
  omega

theorem Inv.without_cancel (hs : s.Inv) (hc : s.connections fd = some c)
    (hopen : c.closed = false) : s.Without fd (cancelTimer s.wheel c.timeoutTimer) := by
  rw [cancelTimer, if_pos (hs.timer_ne_zero hc hopen)]
  refine ⟨hs.wheel.cancel _, fun t => ?_⟩
  rw [TimerWheel.mem_pending_cancel hs.wheel]
  exact and_congr_right fun ht => not_congr (hs.timer_iff hc hopen ht).symm

theorem Inv.not_queued (hs : s.Inv) (hc : s.connections fd = some c) (hopen : c.closed = false) :
    fd ∉ s.tasks := by
  intro h
  obtain ⟨d, hd, hclosed⟩ := hs.queued.mp h
  rw [hc, Option.some.injEq] at hd
  subst hd
  rw [hopen] at hclosed
  cases hclosed

theorem Inv.isOpen_put (hs : s.Inv) (hfd : s.isOpen fd = true) {d e : Session H} {fd' : Fd}
    (he : (s.put fd d).connections fd' = some e) : s.isOpen fd' = true := by
  by_cases hne : fd' = fd
  · subst hne
    exact hfd
  · rw [connections_put_ne hne] at he
    exact hs.isOpen he

theorem Inv.arm (hs : s.Inv) {wheel : TimerWheel Timeout} (hw : s.Without fd wheel)
    (hq : fd ∉ s.tasks) (hfd : s.isOpen fd = true) (hopen : c.closed = false)
    (when : Timestamp) :
    ({ s with wheel := wheel.addTimer when ⟨c.object, fd⟩ }.put fd
      { c with timeoutTimer := wheel.nextTimerId }).Inv where
  wheel := hw.inv.addRepeating ..
  timer t ht := by
    rcases (TimerWheel.mem_pending_addRepeating hw.inv).mp ht with rfl | ht
    · exact ⟨_, connections_put_self .., rfl, hopen, rfl⟩
    · obtain ⟨ht, hne⟩ := (hw.mem t).mp ht
      rw [connections_put_ne hne]
      exact hs.timer t ht
  live {fd' d} hd hlive := by
    by_cases hne : fd' = fd
    · exact ⟨_, (TimerWheel.mem_pending_addRepeating hw.inv).mpr (.inl rfl), hne.symm⟩
    · rw [connections_put_ne hne] at hd
      obtain ⟨t, ht, hfd'⟩ := hs.live hd hlive
      refine ⟨t, (TimerWheel.mem_pending_addRepeating hw.inv).mpr (.inr ?_), hfd'⟩
      exact (hw.mem t).mpr ⟨ht, hfd' ▸ hne⟩
  queued {fd'} := by
    by_cases hne : fd' = fd
    · subst hne
      simp only [connections_put_self, Option.some.injEq, exists_eq_left', hopen,
        Bool.false_eq_true, iff_false]
      exact hq
    · rw [connections_put_ne hne]
      exact hs.queued
  nodup := hs.nodup
  isOpen hd := hs.isOpen_put hfd hd
  dangling := hs.dangling

/-- The connection on `fd` is closed: its timeout goes and its erase is queued. -/
theorem Inv.close (hs : s.Inv) {wheel : TimerWheel Timeout} (hw : s.Without fd wheel)
    (hc : s.connections fd = some c) (hopen : c.closed = false) {d : Session H}
    (hclosed : d.closed = true) :
    ({ s with wheel := wheel, tasks := s.tasks ++ [fd] }.put fd d).Inv where
  wheel := hw.inv
  timer t ht := by
    obtain ⟨ht, hne⟩ := (hw.mem t).mp ht
    rw [connections_put_ne hne]
    exact hs.timer t ht
  live {fd' e} he hlive := by
    by_cases hne : fd' = fd
    · subst hne
      rw [connections_put_self, Option.some.injEq] at he
      rw [← he, hclosed] at hlive
      cases hlive
    · rw [connections_put_ne hne] at he
      obtain ⟨t, ht, hfd'⟩ := hs.live he hlive
      exact ⟨t, (hw.mem t).mpr ⟨ht, hfd' ▸ hne⟩, hfd'⟩
  queued {fd'} := by
    change fd' ∈ s.tasks ++ [fd] ↔ _
    by_cases hne : fd' = fd
    · subst hne
      simp [hclosed]
    · rw [connections_put_ne hne, List.mem_append, List.mem_singleton]
      simpa [hne] using hs.queued
  nodup := by
    refine List.nodup_append.mpr ⟨hs.nodup, by simp, fun a ha b hb hab => ?_⟩
    rw [List.mem_singleton] at hb
    exact hs.not_queued hc hopen (hb ▸ hab ▸ ha)
  isOpen he := hs.isOpen_put (hs.isOpen hc) he
  dangling := hs.dangling

theorem Inv.update (hs : s.Inv) (hc : s.connections fd = some c) {d : Session H}
    (hd : d.object = c.object ∧ d.timeoutTimer = c.timeoutTimer ∧ d.closed = c.closed) :
    (s.put fd d).Inv where
  wheel := hs.wheel
  timer t ht := by
    obtain ⟨e, he, ho, hclosed, htimer⟩ := hs.timer t ht
    by_cases hne : t.callback.fd = fd
    · rw [hne, hc, Option.some.injEq] at he
      subst he
      rw [hne, connections_put_self]
      exact ⟨d, rfl, hd.1.trans ho, hd.2.2.trans hclosed, hd.2.1.trans htimer⟩
    · rw [connections_put_ne hne]
      exact ⟨e, he, ho, hclosed, htimer⟩
  live {fd' e} he hlive := by
    by_cases hne : fd' = fd
    · subst hne
      rw [connections_put_self, Option.some.injEq] at he
      exact hs.live hc (by rw [← hd.2.2, he, hlive])
    · rw [connections_put_ne hne] at he
      exact hs.live he hlive
  queued {fd'} := by
    by_cases hne : fd' = fd
    · subst hne
      apply hs.queued.trans
      simp [hc, hd.2.2]
    · rw [connections_put_ne hne]
      exact hs.queued
  nodup := hs.nodup
  isOpen he := hs.isOpen_put (hs.isOpen hc) he
  dangling := hs.dangling

/-! ## The events -/

theorem Inv.onClose (hs : s.Inv) (fd : Fd) : (s.onClose fd).Inv := by
  unfold HttpServer.onClose
  cases hc : s.connections fd with
  | none => exact hs
  | some c =>
    simp only
    split
    · exact hs
    · next hopen =>
      have hopen := Bool.eq_false_iff.mpr hopen
      exact hs.close (hs.without_cancel hc hopen) hc hopen c.toConnection.closed_onClose

theorem Inv.refreshTimeout (hs : s.Inv) (hc : s.connections fd = some c) (hopen : c.closed = false)
    (now : Timestamp) :
    (s.refreshTimeout fd c now).1.Inv ∧
      (s.refreshTimeout fd c now).1.connections fd = some (s.refreshTimeout fd c now).2 ∧
      (s.refreshTimeout fd c now).2.closed = false :=
  ⟨hs.arm (hs.without_cancel hc hopen) (hs.not_queued hc hopen) (hs.isOpen hc) hopen _,
    connections_put_self .., hopen⟩

theorem Inv.onMessage (hs : s.Inv) (fd : Fd) (env : ServerEnv H) (r : ReadOutcome)
    (now : Timestamp) : (s.onMessage fd env r now).Inv := by
  -- once the timeout is refreshed, the connection is closed or only its own state changes
  have serve {s : HttpServer H} {c : Session H} (hs : s.Inv) (hc : s.connections fd = some c)
      (hopen : c.closed = false) (d : Connection H) :
      (if d.closed then s.release fd { c with toConnection := d }
        else s.put fd { c with toConnection := d }).Inv := by
    split
    · next hd => exact hs.close (hs.without_cancel hc hopen) hc hopen hd
    · next hd => exact hs.update hc ⟨rfl, rfl, (Bool.eq_false_iff.mpr hd).trans hopen.symm⟩
  unfold HttpServer.onMessage
  cases hc : s.connections fd with
  | none => exact hs
  | some c =>
    simp only
    split
    · exact hs
    · next hopen =>
      have hopen := Bool.eq_false_iff.mpr hopen
      cases c.receives r with
      | false => exact serve hs hc hopen _
      | true =>
        obtain ⟨hs₁, hc₁, hopen₁⟩ := hs.refreshTimeout hc hopen now
        exact serve hs₁ hc₁ hopen₁ _

/-- An fd that is not open has no connection, hence no timeout and no queued erase. -/
theorem Inv.free (hs : s.Inv) (hfd : s.isOpen fd = false) :
    s.connections fd = none ∧ fd ∉ s.tasks ∧ s.Without fd s.wheel := by
  have hnone : s.connections fd = none := by
    cases hc : s.connections fd with
    | none => rfl
    | some c =>
      rw [hs.isOpen hc] at hfd
      cases hfd
  refine ⟨hnone, fun h => ?_, hs.wheel, fun t => ?_⟩
  · obtain ⟨c, hc, -⟩ := hs.queued.mp h
    rw [hnone] at hc
    cases hc
  · refine ⟨fun ht => ⟨ht, fun hfd => ?_⟩, And.left⟩
    obtain ⟨c, hc, -⟩ := hs.timer t ht
    rw [hfd, hnone] at hc
    cases hc

theorem Inv.onAccept [HeadMemory] (hs : s.Inv) (hfd : s.isOpen fd = false) (now : Timestamp) :
    (s.onAccept fd now).Inv := by
  obtain ⟨hnone, hq, hw⟩ := hs.free hfd
  have hs₁ : Inv { s with
      isOpen := Function.update s.isOpen fd true
      objects := s.objects + 1 } := by
    refine ⟨hs.wheel, hs.timer, hs.live, hs.queued, hs.nodup, fun {fd' c} hc => ?_, hs.dangling⟩
    by_cases hne : fd' = fd
    · subst hne; exact Function.update_self ..
    · simpa [Function.update_of_ne hne] using hs.isOpen hc
  exact hs₁.arm (c := { object := s.objects + 1 }) ⟨hw.inv, hw.mem⟩ hq
    (Function.update_self ..) rfl _

/-- A timer that fires calls `on_close` on its connection, which cancels it once more. -/
theorem Inv.timeout (hs : s.Inv) {t : Timer Timeout} (ht : t ∈ s.wheel.pending) :
    ({ s with wheel := s.wheel.cancel t.id }.onTimeout t.callback).Inv := by
  obtain ⟨c, hc, ho, hopen, htimer⟩ := hs.timer t ht
  have hw := hs.without_cancel hc hopen
  rw [cancelTimer, if_pos (hs.timer_ne_zero hc hopen), htimer] at hw
  have hw' : s.Without t.callback.fd ((s.wheel.cancel t.id).cancel t.id) := by
    refine ⟨hw.inv.cancel _, fun u => ?_⟩
    rw [TimerWheel.mem_pending_cancel hw.inv, hw.mem u]
    refine ⟨fun h => h.1, fun h => ⟨h, fun hid => h.2 ?_⟩⟩
    exact (hs.timer_iff hc hopen h.1).mpr (hid.trans htimer.symm)
  simp only [HttpServer.onTimeout, hc, if_pos ho, HttpServer.onClose, hopen, Bool.false_eq_true,
    if_false, release, cancelTimer, hs.timer_ne_zero hc hopen, ne_eq, not_false_eq_true, if_true]
  rw [htimer]
  exact hs.close hw' hc hopen c.toConnection.closed_onClose

/-- The erase of a connection empties its entry, frees its fd and touches no other. -/
theorem erase_spec (hc : s.connections fd = some c) :
    (s.erase fd).connections fd = none ∧
    (∀ fd' ≠ fd, (s.erase fd).connections fd' = s.connections fd' ∧
      (s.erase fd).isOpen fd' = s.isOpen fd') ∧
    (s.erase fd).wheel = s.wheel ∧ (s.erase fd).tasks = s.tasks ∧
    (s.erase fd).dangling = s.dangling := by
  unfold erase
  rw [hc]
  exact ⟨Function.update_self ..,
    fun fd' hne => ⟨Function.update_of_ne hne .., Function.update_of_ne hne ..⟩,
    rfl, rfl, rfl⟩

theorem Inv.task (hs : s.Inv) {tasks : List Fd} (ht : s.tasks = fd :: tasks) :
    ({ s with tasks }.erase fd).Inv := by
  obtain ⟨c, hc, hclosed⟩ := hs.queued.mp (ht ▸ List.mem_cons_self)
  obtain ⟨hfd, hnodup⟩ := List.nodup_cons.mp (ht ▸ hs.nodup)
  obtain ⟨hnone, hother, hwheel, htasks, hdangling⟩ := erase_spec (s := { s with tasks }) hc
  have hsome {fd' : Fd} {d : Session H}
      (hd : ({ s with tasks }.erase fd).connections fd' = some d) :
      fd' ≠ fd := by
    rintro rfl
    rw [hnone] at hd
    cases hd
  constructor
  case wheel => rw [hwheel]; exact hs.wheel
  case timer =>
    intro t ht
    rw [hwheel] at ht
    obtain ⟨d, hd, ho, hopen, htimer⟩ := hs.timer t ht
    have hne : t.callback.fd ≠ fd := by
      intro hfd
      rw [hfd, hc, Option.some.injEq] at hd
      rw [hd, hopen] at hclosed
      cases hclosed
    exact ⟨d, (hother _ hne).1.trans hd, ho, hopen, htimer⟩
  case live =>
    intro fd' d hd hlive
    rw [hwheel]
    exact hs.live ((hother fd' (hsome hd)).1.symm.trans hd) hlive
  case queued =>
    intro fd'
    rw [htasks]
    by_cases hne : fd' = fd
    · subst hne
      simpa [hnone] using hfd
    · have hq : fd' ∈ s.tasks ↔ _ := hs.queued
      rw [ht, List.mem_cons, or_iff_right hne] at hq
      rw [(hother fd' hne).1]
      exact hq
  case nodup => rw [htasks]; exact hnodup
  case isOpen =>
    intro fd' d hd
    obtain ⟨hconn, hisOpen⟩ := hother fd' (hsome hd)
    exact hisOpen.trans (hs.isOpen (hconn.symm.trans hd))
  case dangling => rw [hdangling]; exact hs.dangling

theorem machine_kept [HeadMemory] : (machine start).Kept Inv := by
  intro s s' e hs h
  cases e with
  | accept fd now =>
    cases fd with
    | none => cases h; exact hs
    | some fd =>
      simp only [machine] at h
      split at h
      · cases h
      · next hfd => cases h; exact hs.onAccept (Bool.eq_false_iff.mpr hfd) now
  | message fd env r now => cases h; exact hs.onMessage fd env r now
  | close fd => cases h; exact hs.onClose fd
  | timeout timerId =>
    simp only [machine] at h
    split at h
    · cases h
    · next t ht =>
      have hid : t.id = timerId := by simpa using List.find?_some ht
      subst hid
      cases h
      exact hs.timeout (List.mem_of_find?_eq_some ht)
  | task =>
    simp only [machine] at h
    split at h
    · cases h
    · next ht => cases h; exact hs.task ht
  | other fd isOpen =>
    simp only [machine] at h
    split at h
    · next hnone =>
      cases h
      refine ⟨hs.wheel, hs.timer, hs.live, hs.queued, hs.nodup, fun {fd' c} hc => ?_, hs.dangling⟩
      have hne : fd' ≠ fd := by
        rintro rfl
        rw [hnone] at hc
        cases hc
      simpa [Function.update_of_ne hne] using hs.isOpen hc
    · cases h

/-- `start()` was just called: no connection, no timeout of one and no queued erase. -/
structure Started (s : HttpServer H) : Prop where
  wheel : s.wheel.Inv
  pending : s.wheel.pending = []
  connections : ∀ fd, s.connections fd = none
  tasks : s.tasks = []
  dangling : s.dangling = false

theorem Started.inv (h : s.Started) : s.Inv where
  wheel := h.wheel
  timer t ht := by rw [h.pending] at ht; cases ht
  live hc := by rw [h.connections] at hc; cases hc
  queued := by simp [h.tasks, h.connections]
  nodup := by simp [h.tasks]
  isOpen hc := by rw [h.connections] at hc; cases hc
  dangling := h.dangling

theorem Inv.timers_eq (hs : s.Inv) (hc : s.connections fd = some c) (hopen : c.closed = false) :
    (s.wheel.pending.filter fun t => t.callback = ⟨c.object, fd⟩).map (·.id) =
      [c.timeoutTimer] := by
  have hiff : ∀ t ∈ s.wheel.pending, t.callback = ⟨c.object, fd⟩ ↔ t.id = c.timeoutTimer := by
    intro t ht
    rw [← hs.timer_iff hc hopen ht]
    constructor
    · intro h; rw [h]
    · intro h
      obtain ⟨d, hd, ho, -, -⟩ := hs.timer t ht
      rw [h, hc, Option.some.injEq] at hd
      subst hd
      cases hcb : t.callback
      simp_all
  obtain ⟨t, ht, hfd⟩ := hs.live hc hopen
  have hmem : c.timeoutTimer ∈ s.wheel.pending.map (·.id) :=
    List.mem_map.mpr ⟨t, ht, (hs.timer_iff hc hopen ht).mp hfd⟩
  rw [← map_filter_key_of_nodup hs.wheel.nodup hmem]
  exact congrArg _ (List.filter_congr fun u hu => decide_eq_decide.mpr (hiff u hu))

/-- An open connection has exactly one pending timeout, the one `timeoutTimer` names; every
pending timeout belongs to an open connection, and none has called back into a destroyed
one; a closed connection has exactly one queued erase, every queued erase names a closed
connection, and an fd that `accept` may return has no entry. -/
structure Consistent (s : HttpServer H) : Prop where
  timeout : ∀ fd c, s.connections fd = some c → c.closed = false →
    (s.wheel.pending.filter fun t => t.callback = ⟨c.object, fd⟩).map (·.id) = [c.timeoutTimer]
  owner : ∀ t ∈ s.wheel.pending, ∃ c, s.connections t.callback.fd = some c ∧
    c.object = t.callback.object ∧ c.closed = false
  dangling : s.dangling = false
  erase : ∀ fd c, s.connections fd = some c → c.closed = true → s.tasks.count fd = 1
  erases : ∀ fd ∈ s.tasks, ∃ c, s.connections fd = some c ∧ c.closed = true
  free : ∀ fd, s.isOpen fd = false → s.connections fd = none

/-- **The life of a connection.** After any events since `start()` the connection table, the
timer wheel and the task queue agree. -/
theorem lifecycle [HeadMemory] (h0 : start.Started) {events : List (ServerEvent H)}
    (h : (machine start).run events = some s) : s.Consistent := by
  have hs : s.Inv := Machine.invariant h0.inv machine_kept h
  constructor
  case timeout => exact fun fd c hc hopen => hs.timers_eq hc hopen
  case owner =>
    intro t ht
    obtain ⟨c, hc, ho, hopen, -⟩ := hs.timer t ht
    exact ⟨c, hc, ho, hopen⟩
  case dangling => exact hs.dangling
  case erase =>
    intro fd c hc hclosed
    exact List.count_eq_one_of_mem hs.nodup (hs.queued.mpr ⟨c, hc, hclosed⟩)
  case erases => exact fun fd hfd => hs.queued.mp hfd
  case free => exact fun fd hfd => (hs.free hfd).1

def small : HttpServer Unit := { wheel := .new 10 4 ⟨0⟩, isOpen := fun fd => fd = 3 }

/-- The error and close callbacks of one event, a timeout, and an fd that is used again. -/
def reuse : List (ServerEvent Unit) :=
  [.accept (some 5) ⟨0⟩, .accept (some 6) ⟨0⟩, .close 5, .close 5, .timeout 2, .task,
    .accept (some 5) ⟨7⟩]

def reused : HttpServer Unit := ((machine small).run reuse).getD small

theorem reused_consistent : reused.Consistent := by
  have h0 : small.Started := ⟨.new (by decide) _ _, rfl, fun _ => rfl, rfl, rfl⟩
  have h : (machine small).run reuse = some reused := rfl
  exact lifecycle h0 h

end Hound.Http.HttpServer
