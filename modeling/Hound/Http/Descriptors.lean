import Hound.Http.ServingSafe
import Mathlib.Data.Int.Interval
import Mathlib.Data.Finset.Card

/-!
# The server's descriptors

An event leaves the server its sockets, closes some of them or takes a new one
(`releases_or_takes`). So what is open belongs to the server or to the rest of the program, and
never to both (`descriptors_accounted`).

`FD_SET` is defined for descriptors below `FD_SETSIZE` only, and nothing in the code asks for the
number of one. The system gives out the lowest that is free, so what counts is how many are in
use: the descriptors that `rebuild_fds` puts into its sets stay in range exactly as long as
those of the program and those of the server together are not more than `FD_SETSIZE`
(`capacity`). A connection that is closed has its descriptor until its erase has run.
-/

namespace Hound.Http

open Lib Reactor PollState

variable {H : Type}

/-- The descriptors that an event may bring. -/
def LoopEvent.Offers : LoopEvent H → Fd → Prop
  | .handle out, fd => fd ∈ out.accepted
  | .start fd', fd => fd = fd'
  | _, _ => False

namespace Serving

variable {s s' : Serving H} {fd : Fd} {e : LoopEvent H}

/-! ## What an event does to the descriptors -/

/-- The sockets of the server. -/
def Owns (s : Serving H) (fd : Fd) : Prop :=
  s.listening.map Prod.fst = some fd ∨ s.server.connections fd ≠ none

/-- From `s` to `s'` the server closes the sockets that it has no more, if any. -/
structure Releases (s s' : Serving H) : Prop where
  wakeupFd : s'.wakeupFd = s.wakeupFd
  owns : ∀ fd, s'.Owns fd → s.Owns fd
  isOpen : ∀ fd, s'.server.isOpen fd = true ↔ s.server.isOpen fd = true ∧ (s.Owns fd → s'.Owns fd)

/-- From `s` to `s'` the server gets the socket `fd`. -/
structure Takes (s s' : Serving H) (fd : Fd) : Prop where
  wakeupFd : s'.wakeupFd = s.wakeupFd
  free : s.server.isOpen fd = false
  owns : ∀ f, s'.Owns f ↔ f = fd ∨ s.Owns f
  isOpen : ∀ f, s'.server.isOpen f = true ↔ f = fd ∨ s.server.isOpen f = true

theorem Releases.same (hw : s'.wakeupFd = s.wakeupFd) (hl : s'.listening = s.listening)
    (hc : ∀ fd, s'.server.connections fd = none ↔ s.server.connections fd = none)
    (ho : s'.server.isOpen = s.server.isOpen) : Releases s s' := by
  have howns (fd : Fd) : s'.Owns fd ↔ s.Owns fd := by
    rw [Owns, Owns, hl, ne_eq, hc]
  refine ⟨hw, fun fd => (howns fd).mp, fun fd => ?_⟩
  rw [ho]
  exact (and_iff_left (howns fd).mpr).symm

theorem Keeps.releases (h : Keeps s s') : Releases s s' :=
  .same h.wakeupFd h.listening h.connections h.isOpen

theorem Releases.refl (s : Serving H) : Releases s s := (Keeps.refl s).releases

theorem Releases.progress {stage : Stage} (h : Releases { s with stage } s') : Releases s s' :=
  ⟨h.wakeupFd, h.owns, h.isOpen⟩

theorem Takes.progress {stage : Stage} (h : Takes { s with stage } s' fd) : Takes s s' fd :=
  ⟨h.wakeupFd, h.free, h.owns, h.isOpen⟩

theorem takes_onAccept [HeadMemory] (hs : s.Inv) {out : Outside H} (hfd : out.accepted = some fd)
    (hfree : s.server.isOpen fd = false) : Takes s (s.onAccept out) fd := by
  have hnone := (hs.server.free hfree).1
  have haccept : s.onAccept out = { s with
      server := s.server.onAccept fd out.now
      fds := s.fds ++ [fd]
      channel := Function.update s.channel fd s.poll.heap.length }.watch fd (.connection fd) := by
    unfold onAccept
    rw [hfd]
  rw [haccept]
  refine ⟨rfl, hfree, fun f => ?_, fun f => ?_⟩
  · show s.listening.map Prod.fst = some f ∨ (s.server.onAccept fd out.now).connections f ≠ none ↔ _
    by_cases hne : f = fd
    · subst hne
      refine iff_of_true (.inr fun h => ?_) (.inl rfl)
      exact Option.some_ne_none _ ((HttpServer.connections_put_self ..).symm.trans h)
    · have hsame : (s.server.onAccept fd out.now).connections f = s.server.connections f :=
        HttpServer.connections_put_ne hne ..
      rw [hsame]
      exact (or_iff_right hne).symm
  · show Function.update s.server.isOpen fd true f = true ↔ _
    by_cases hne : f = fd
    · rw [hne, Function.update_self]
      exact iff_of_true rfl (.inl rfl)
    · rw [Function.update_of_ne hne]
      exact (or_iff_right hne).symm

theorem takes_start (hl : s.listening = none) (hfree : s.server.isOpen fd = false) :
    Takes s (s.start fd) fd := by
  rw [start_eq hl]
  refine ⟨rfl, hfree, fun f => ?_, fun f => ?_⟩
  · show some fd = some f ∨ s.server.connections f ≠ none ↔ f = fd ∨ (s.listening.map _ = _ ∨ _)
    rw [hl, Option.map_none, Option.some.injEq, eq_comm (a := fd)]
    simp only [reduceCtorEq, false_or]
  · show Function.update s.server.isOpen fd true f = true ↔ _
    by_cases hne : f = fd
    · rw [hne, Function.update_self]
      exact iff_of_true rfl (.inl rfl)
    · rw [Function.update_of_ne hne]
      exact (or_iff_right hne).symm

theorem releases_erase (hs : s.Inv) {tasks : List Fd} (ht : s.server.tasks = fd :: tasks) :
    Releases s (erase { s with server := { s.server with tasks } } fd) := by
  obtain ⟨hinv, hbeside, hserver⟩ := hs.task ht
  obtain ⟨d, hd, -⟩ := hs.server.queued.mp (ht ▸ List.mem_cons_self)
  obtain ⟨hnone, hother, -⟩ := HttpServer.erase_spec (s := { s.server with tasks }) hd
  have hself : s.Owns fd := .inr fun h => by rw [hd] at h; cases h
  have hisOpen : (HttpServer.erase { s.server with tasks } fd).isOpen fd = false := by
    unfold HttpServer.erase
    rw [hd]
    exact Function.update_self ..
  have hfree : ¬ s.Reserved fd := hs.not_reserved fun h => by rw [hd] at h; cases h
  have hnot : ¬ Owns (erase { s with server := { s.server with tasks } } fd) fd := by
    rintro (h | h)
    · rw [hbeside.listening] at h
      exact hfree (.inr h)
    · rw [hserver] at h
      exact h hnone
  have hkept {f : Fd} (hne : f ≠ fd) :
      Owns (erase { s with server := { s.server with tasks } } fd) f ↔ s.Owns f := by
    rw [Owns, Owns, hbeside.listening, hserver, (hother f hne).1]
  refine ⟨hbeside.wakeupFd, fun f h => ?_, fun f => ?_⟩
  · by_cases hne : f = fd
    · exact hne ▸ hself
    · exact (hkept hne).mp h
  · rw [hserver]
    by_cases hne : f = fd
    · rw [hne, hisOpen]
      exact iff_of_false Bool.false_ne_true fun h => hnot (h.2 hself)
    · rw [(hother f hne).2]
      exact (and_iff_left (hkept hne).mpr).symm

theorem Stopped.releases (h : Stopped s s') : Releases s s' := by
  have hnot (fd : Fd) : ¬ s'.Owns fd := by
    rintro (hl | hc)
    · rw [h.listening] at hl
      cases hl
    · exact hc (h.server.connections fd)
  refine ⟨h.wakeupFd, fun fd hfd => absurd hfd (hnot fd), fun fd => (h.isOpen fd).trans ?_⟩
  refine and_congr_right fun _ => ⟨fun ⟨hc, hl⟩ hfd => ?_, fun hfd => ⟨?_, fun hl => ?_⟩⟩
  · exact absurd hfd (not_or.mpr ⟨hl, not_not.mpr hc⟩)
  · by_contra hc
    exact hnot fd (hfd (.inr hc))
  · exact hnot fd (hfd (.inl hl))

theorem Inv.releases_stop (hs : s.Inv) {order : List Fd} (ho : order.Perm s.fds) :
    Releases s (s.stop order) := by
  cases hl : s.listening with
  | none =>
    rw [stop_idle hl]
    exact .refl s
  | some l => exact (hs.stop hl ho).releases

theorem Inv.releases_or_takes_handle [HeadMemory] (hs : s.Inv) {out : Outside H}
    (hfree : ∀ fd ∈ out.accepted, s.server.isOpen fd = false) (c : Nat) :
    Releases s (s.handle c out) ∨ ∃ fd, out.accepted = some fd ∧ Takes s (s.handle c out) fd := by
  cases hch : s.poll.deref c with
  | none =>
    rw [handle_dead hch]
    exact .inl ⟨rfl, (Releases.refl s).owns, (Releases.refl s).isOpen⟩
  | some ch =>
    rcases hs.handle_cases hch out with ⟨-, hkeeps⟩ | ⟨haccept, -⟩
    · exact .inl hkeeps.releases
    · rw [haccept]
      cases hfd : out.accepted with
      | none =>
        unfold Serving.onAccept
        rw [hfd]
        exact .inl (.refl s)
      | some fd => exact .inr ⟨fd, rfl, takes_onAccept hs hfd (hfree fd hfd)⟩

/-- **Every event** of the loop leaves the server its sockets, closes some of them, or takes one
that the event offers. -/
theorem releases_or_takes [HeadMemory] (hs : s.Inv) (hp : s.Paced) (h : s.next e = some s')
    (hown : ∀ fd isOpen, e ≠ .other fd isOpen) :
    Releases s s' ∨ ∃ fd, e.Offers fd ∧ Takes s s' fd := by
  have hsame {s₁ : Serving H} (hw : s₁.wakeupFd = s.wakeupFd) (hl : s₁.listening = s.listening)
      (hserver : s₁.server = s.server) : Releases s s₁ :=
    .same hw hl (fun fd => by rw [hserver]) (by rw [hserver])
  cases e with
  | other fd isOpen => exact absurd rfl (hown fd isOpen)
  | poll select =>
    obtain ⟨-, ⟨-, rfl⟩ | ⟨poll, active, -, rfl⟩⟩ := next_poll h <;>
      exact .inl (hsame rfl rfl rfl)
  | dispatched | ticked | iterated =>
    obtain ⟨stage, rfl, -⟩ := next_stage (by simp) h
    exact .inl (hsame rfl rfl rfl)
  | handle out =>
    obtain ⟨c, active, -, hfree, rfl⟩ := next_handle h
    have hs₁ : Inv { s with stage := .dispatch active } := hs.progress _ _ _
    rcases hs₁.releases_or_takes_handle hfree c with hreleases | ⟨fd, hfd, htakes⟩
    · exact .inl hreleases.progress
    · exact .inr ⟨fd, hfd, htakes.progress⟩
  | stopIn out order =>
    obtain ⟨c, active, -, ho, rfl⟩ := next_stopIn h
    have hs₁ : Inv { s with stage := .dispatch active } := hs.progress _ _ _
    have hr : Releases s (stop { s with stage := .dispatch active } order) :=
      (hs₁.releases_stop ho).progress
    exact .inl ⟨hr.wakeupFd, hr.owns, hr.isOpen⟩
  | timeout timerId =>
    obtain ⟨-, t, ht, -, rfl⟩ := next_timeout h
    obtain ⟨-, hkeeps, -⟩ := hs.timeout (List.mem_of_find?_eq_some ht)
    exact .inl hkeeps.releases
  | task =>
    obtain ⟨left, hstage, h⟩ := next_task h
    have hs₁ : Inv { s with stage := .tasks left } := hs.progress _ _ _
    rcases runTask_cases (s := { s with stage := .tasks left }) (fun hne => (hp.stale hne).1) h
      with ⟨stale, -, rfl, -⟩ | ⟨fd, tasks, -, htasks, rfl⟩
    · exact .inl (hsame rfl rfl rfl)
    · exact .inl (releases_erase hs₁ htasks).progress
  | start fd =>
    obtain ⟨hfree, rfl⟩ := next_start h
    cases hl : s.listening with
    | some l =>
      rw [start_running hl]
      exact .inl (.refl s)
    | none => exact .inr ⟨fd, rfl, takes_start hl hfree⟩
  | stop order =>
    obtain ⟨ho, rfl⟩ := next_stop h
    exact .inl (hs.releases_stop ho)

/-! ## Whose a descriptor is -/

/-- What is open is the server's or `theirs`, and nothing is both. -/
structure Accounted (theirs : Fd → Prop) (s : Serving H) : Prop where
  isOpen : ∀ fd, s.server.isOpen fd = true ↔ theirs fd ∨ s.Owns fd
  apart : ∀ fd, theirs fd → ¬ s.Owns fd

section Accounts

variable {theirs : Fd → Prop}

theorem Releases.accounted (h : Releases s s') (ha : s.Accounted theirs) : s'.Accounted theirs where
  isOpen fd := by
    rw [h.isOpen, ha.isOpen]
    constructor
    · rintro ⟨ht | ho, hkept⟩
      · exact .inl ht
      · exact .inr (hkept ho)
    · rintro (ht | ho)
      · exact ⟨.inl ht, fun ho => absurd ho (ha.apart fd ht)⟩
      · exact ⟨.inr (h.owns fd ho), fun _ => ho⟩
  apart fd ht ho := ha.apart fd ht (h.owns fd ho)

theorem Takes.accounted (h : Takes s s' fd) (ha : s.Accounted theirs) : s'.Accounted theirs where
  isOpen f := by
    rw [h.isOpen, h.owns, ha.isOpen]
    exact or_left_comm
  apart f ht ho := by
    rcases (h.owns f).mp ho with rfl | ho
    · have hopen := (ha.isOpen f).mpr (.inl ht)
      rw [h.free] at hopen
      cases hopen
    · exact ha.apart f ht ho

/-- What the rest of the program has open, when it is at `theirs` before the events. -/
def theirsAfter (theirs : Fd → Prop) : List (LoopEvent H) → Fd → Prop
  | [] => theirs
  | .other fd isOpen :: events => theirsAfter (Function.update theirs fd (isOpen = true)) events
  | _ :: events => theirsAfter theirs events

theorem Accounted.other [HeadMemory] {isOpen : Bool} (ha : s.Accounted theirs)
    (h : s.next (.other fd isOpen) = some s') :
    s'.Accounted (Function.update theirs fd (isOpen = true)) := by
  obtain ⟨⟨hnone, -, hl⟩, h⟩ := Option.ite_none_right_eq_some.mp h
  cases h
  have hnot : ¬ s.Owns fd := not_or.mpr ⟨hl, not_not.mpr hnone⟩
  constructor
  case isOpen =>
    intro f
    show Function.update s.server.isOpen fd isOpen f = true ↔ _ ∨ s.Owns f
    by_cases hne : f = fd
    · rw [hne, Function.update_self, Function.update_self]
      exact (or_iff_left hnot).symm
    · rw [Function.update_of_ne hne, Function.update_of_ne hne]
      exact ha.isOpen f
  case apart =>
    intro f ht
    by_cases hne : f = fd
    · exact hne ▸ hnot
    · rw [Function.update_of_ne hne] at ht
      exact ha.apart f ht

theorem Accounted.runFrom [HeadMemory] {start : Serving H} :
    ∀ {events : List (LoopEvent H)} {s : Serving H}
    {theirs : Fd → Prop}, s.Accounted theirs → s.Inv → s.Paced →
    (machine start).runFrom s events = some s' → s'.Accounted (theirsAfter theirs events)
  | [], s, theirs, ha, _, _, h => by
    cases h
    exact ha
  | e :: events, s, theirs, ha, hs, hp, h => by
    obtain ⟨s₁, hstep, hrest⟩ := Machine.runFrom_cons h
    have hnext := machine_step hstep
    have hfollows := next_spec hs hp hnext
    have hgo {theirs₁ : Fd → Prop} (ha₁ : s₁.Accounted theirs₁) :=
      Accounted.runFrom ha₁ hfollows.inv hfollows.paced hrest
    cases e with
    | other fd isOpen => exact hgo (ha.other hnext)
    | poll | handle | stopIn | dispatched | timeout | ticked | task | iterated | start | stop =>
      refine hgo ?_
      rcases releases_or_takes hs hp hnext (fun _ _ h => by cases h) with hr | ⟨fd, -, ht⟩
      · exact hr.accounted ha
      · exact ht.accounted ha

end Accounts

theorem created_accounted {server : HttpServer H} (h0 : server.Started) (wakeupFd : Fd) :
    (created server wakeupFd).Accounted fun fd => server.isOpen fd = true := by
  have hnot (fd : Fd) : ¬ (created server wakeupFd).Owns fd := by
    rintro (hl | hc)
    · cases hl
    · exact hc (h0.connections fd)
  exact ⟨fun fd => (or_iff_left (hnot fd)).symm, fun fd _ => hnot fd⟩

/-- **No descriptor is lost, and none is taken away.** In every run of the loop, with starts and
stops and whatever the rest of the program opens and closes, the open descriptors are those of
the rest of the program, the listening socket and the connections of the server, and none is
of both. -/
theorem descriptors_accounted [HeadMemory] {server : HttpServer H} {wakeupFd : Fd}
    {events : List (LoopEvent H)}
    (h0 : server.Started) (hfd : server.isOpen wakeupFd = true)
    (h : (machine (created server wakeupFd)).run events = some s) (fd : Fd) :
    (s.server.isOpen fd = true ↔ theirsAfter (fun fd => server.isOpen fd = true) events fd ∨
      s.listening.map Prod.fst = some fd ∨ s.server.connections fd ≠ none) ∧
    ¬ (theirsAfter (fun fd => server.isOpen fd = true) events fd ∧
      (s.listening.map Prod.fst = some fd ∨ s.server.connections fd ≠ none)) := by
  have hinit := created_accounted h0 wakeupFd
  have ha := hinit.runFrom (created_inv h0 hfd) (created_paced h0) h
  exact ⟨ha.isOpen fd, fun hboth => ha.apart fd hboth.1 hboth.2⟩

/-- A connection fails and its descriptor is closed; then the rest of the program opens a file under
the same number, and the server goes on. -/
def reopened : List (LoopEvent Unit) :=
  restart.take 9 ++ [.ticked, .task, .other 5 true, .iterated, .stop []]

theorem descriptors_accounted_reopened : (after reopened).server.isOpen 5 = true ∧
    (after reopened).server.isOpen 4 = false := by
  have h : (machine fresh).run reopened = some (after reopened) := rfl
  have htheirs (f : Fd) : theirsAfter (fun fd => HttpServer.small.isOpen fd = true) reopened f ↔
      f = 5 ∨ f = 3 := by
    show Function.update (fun fd => HttpServer.small.isOpen fd = true) 5 (true = true) f ↔ _
    by_cases h5 : f = 5
    · rw [h5, Function.update_self]
      exact iff_of_true rfl (.inl rfl)
    · rw [Function.update_of_ne h5]
      exact decide_eq_true_iff.trans (or_iff_right h5).symm
  have h5 := (descriptors_accounted small_started rfl h 5).1
  refine ⟨h5.mpr (.inl ((htheirs 5).mpr (.inl rfl))), Bool.eq_false_iff.mpr fun h4 => ?_⟩
  rcases (descriptors_accounted small_started rfl h 4).1.mp h4 with ht | hl | hc
  · exact absurd ((htheirs 4).mp ht) (by decide)
  · cases hl
  · exact hc rfl

/-! ## Counting -/

/-- Every `FD_SET` of `rebuild_fds` is below `setSize`. -/
def InRange (setSize : Nat) (s : Serving H) : Prop :=
  ∀ asked maxFd, s.poll.rebuildFds = some (asked, maxFd) → ∀ fd ∈ asked.except,
    0 ≤ fd ∧ fd < setSize

def held (s : Serving H) : Nat := s.fds.length + s.listening.toList.length

/-- POSIX: the lowest descriptor that is not open. -/
def Lowest (s : Serving H) (fd : Fd) : Prop :=
  0 ≤ fd ∧ ∀ f, 0 ≤ f → f < fd → s.server.isOpen f = true

/-- The rest of the program neither opens nor closes anything. -/
def Posix (s : Serving H) : LoopEvent H → Prop
  | .other _ _ => False
  | e => ∀ fd, e.Offers fd → s.Lowest fd

variable {K : Finset Fd} {setSize : Nat}

/-- What holds of every state of a run in which the system gives out the lowest descriptors and the
rest of the program has those in `K`. -/
structure Counted (K : Finset Fd) (s : Serving H) : Prop where
  inv : s.Inv
  paced : s.Paced
  accounted : s.Accounted (· ∈ K)
  wakeupFd : s.wakeupFd ∈ K
  nonneg : ∀ fd, s.Owns fd → 0 ≤ fd

theorem Counted.card_open (hs : s.Counted K) : ∃ O : Finset Fd,
    (∀ fd, fd ∈ O ↔ s.server.isOpen fd = true) ∧ O.card = K.card + s.held := by
  have hmem (fd : Fd) : fd ∈ s.fds ++ s.listening.toList.map Prod.fst ↔ s.Owns fd := by
    rw [List.mem_append, hs.inv.fds, Owns, or_comm]
    cases s.listening <;> simp [eq_comm]
  have hnodup : (s.fds ++ s.listening.toList.map Prod.fst).Nodup := by
    refine List.nodup_append.mpr ⟨hs.inv.nodup, ?_, fun a ha b hb hab => ?_⟩
    · cases s.listening
      · exact List.nodup_nil
      · exact List.nodup_singleton _
    · have hl : s.listening.map Prod.fst = some b := by
        cases hl : s.listening with
        | none =>
          rw [hl] at hb
          cases hb
        | some l =>
          rw [hl] at hb
          rw [List.mem_singleton.mp hb]
          rfl
      exact (hs.inv.fds a).mp ha (hab ▸ (hs.inv.reserved (.inr hl)).1)
  refine ⟨K ∪ (s.fds ++ s.listening.toList.map Prod.fst).toFinset, fun fd => ?_, ?_⟩
  · rw [Finset.mem_union, List.mem_toFinset, hmem, hs.accounted.isOpen]
  · have hdisjoint : Disjoint K (s.fds ++ s.listening.toList.map Prod.fst).toFinset := by
      refine Finset.disjoint_left.mpr fun fd hK ho => hs.accounted.apart fd hK ?_
      exact (hmem fd).mp (List.mem_toFinset.mp ho)
    rw [Finset.card_union_of_disjoint hdisjoint, List.toFinset_card_of_nodup hnodup,
      List.length_append, List.length_map, held]

/-- Every open descriptor is below `setSize`. -/
def Below (setSize : Nat) (s : Serving H) : Prop :=
  ∀ fd, s.server.isOpen fd = true → fd < setSize

theorem Counted.held_le (hs : s.Counted K) (hK : ∀ fd ∈ K, 0 ≤ fd) (h : s.Below setSize) :
    K.card + s.held ≤ setSize := by
  obtain ⟨O, hO, hcard⟩ := hs.card_open
  have hsub : O ⊆ Finset.Ico 0 (setSize : Int) := by
    intro fd hfd
    have hopen := (hO fd).mp hfd
    refine Finset.mem_Ico.mpr ⟨?_, h fd hopen⟩
    exact ((hs.accounted.isOpen fd).mp hopen).elim (hK fd) (hs.nonneg fd)
  have hle := Finset.card_le_card hsub
  rw [Int.card_Ico, Int.sub_zero, Int.toNat_natCast] at hle
  omega

theorem Counted.le_held (hs : s.Counted K) {n : Nat}
    (h : ∀ f : Fd, 0 ≤ f → f < n → s.server.isOpen f = true) : n ≤ K.card + s.held := by
  obtain ⟨O, hO, hcard⟩ := hs.card_open
  have hsub : Finset.Ico 0 (n : Int) ⊆ O := by
    intro f hf
    obtain ⟨h0, hlt⟩ := Finset.mem_Ico.mp hf
    exact (hO f).mpr (h f h0 hlt)
  have hle := Finset.card_le_card hsub
  rw [Int.card_Ico, Int.sub_zero, Int.toNat_natCast] at hle
  omega

theorem Counted.inRange_iff (hs : s.Counted K) (hK : ∀ fd ∈ K, 0 ≤ fd ∧ fd < setSize) :
    s.InRange setSize ↔ s.Below setSize := by
  obtain ⟨asked, maxFd, hasked, -⟩ := hs.inv.represents.rebuildFds
  have hexcept := hs.inv.represents.except hasked
  constructor
  · intro h fd hopen
    rcases (hs.accounted.isOpen fd).mp hopen with hfd | ho
    · exact (hK fd hfd).2
    · refine (h asked maxFd hasked fd ((hexcept fd).mpr ?_)).2
      rcases ho with hl | hc
      · obtain ⟨l, hlistening, rfl⟩ := Option.map_eq_some_iff.mp hl
        rw [hs.inv.table_listener hlistening]
        exact Option.some_ne_none _
      · obtain ⟨d, hd⟩ := Option.ne_none_iff_exists'.mp hc
        rw [hs.inv.table_connection hd]
        exact Option.some_ne_none _
  · intro h asked' maxFd' hasked' fd hfd
    rw [hasked] at hasked'
    cases hasked'
    obtain ⟨⟨c, events⟩, ht⟩ := Option.ne_none_iff_exists'.mp ((hexcept fd).mp hfd)
    have hopen : fd ∈ K ∨ s.Owns fd := by
      rcases hs.inv.table_cases ht with ⟨rfl, -⟩ | hl | ⟨hc, -⟩
      · exact .inl hs.wakeupFd
      · exact .inr (.inl (by rw [hl, Option.map_some]))
      · exact .inr (.inr hc)
    have hbelow := h fd ((hs.accounted.isOpen fd).mpr hopen)
    exact ⟨hopen.elim (fun h => (hK fd h).1) (hs.nonneg fd), hbelow⟩

/-! ## Runs -/

theorem Counted.next [HeadMemory] (hs : s.Counted K) (hposix : s.Posix e) (h : s.next e = some s') :
    s'.Counted K ∧ (Releases s s' ∨ ∃ fd, s.Lowest fd ∧ Takes s s' fd) := by
  have hown : ∀ fd isOpen, e ≠ .other fd isOpen := by
    rintro fd isOpen rfl
    exact hposix
  have hlowest : ∀ fd, e.Offers fd → s.Lowest fd := by
    cases e <;> first | exact hposix | exact absurd rfl (hown _ _)
  have hfollows := next_spec hs.inv hs.paced h
  rcases releases_or_takes hs.inv hs.paced h hown with hr | ⟨fd, hoffers, ht⟩
  · refine ⟨⟨hfollows.inv, hfollows.paced, hr.accounted hs.accounted, ?_, fun fd ho => ?_⟩, .inl hr⟩
    · rw [hr.wakeupFd]
      exact hs.wakeupFd
    · exact hs.nonneg fd (hr.owns fd ho)
  · have hlow := hlowest fd hoffers
    refine ⟨⟨hfollows.inv, hfollows.paced, ht.accounted hs.accounted, ?_, fun f ho => ?_⟩,
      .inr ⟨fd, hlow, ht⟩⟩
    · rw [ht.wakeupFd]
      exact hs.wakeupFd
    · rcases (ht.owns f).mp ho with rfl | ho
      · exact hlow.1
      · exact hs.nonneg f ho

/-- A new descriptor is in range as long as all of them together have room there. -/
theorem Counted.below [HeadMemory] (hs : s.Counted K) (hposix : s.Posix e) (h : s.next e = some s')
    (hbelow : s.Below setSize) (hheld : K.card + s'.held ≤ setSize) : s'.Below setSize := by
  obtain ⟨hs', hr | ⟨fd, ⟨h0, hlow⟩, ht⟩⟩ := hs.next hposix h
  · exact fun f hf => hbelow f ((hr.isOpen f).mp hf).1
  · intro f hf
    rcases (ht.isOpen f).mp hf with rfl | hf
    · have hsucc : ((f.toNat + 1 : Nat) : Int) = f + 1 := by
        rw [Int.natCast_add, Int.toNat_of_nonneg h0, Int.natCast_one]
      have hle : f.toNat + 1 ≤ K.card + s'.held := by
        refine hs'.le_held fun g hg0 hg => (ht.isOpen g).mpr ?_
        rcases Int.lt_or_eq_of_le (Int.le_of_lt_add_one (hsucc ▸ hg)) with hlt | rfl
        · exact .inr (hlow g hg0 hlt)
        · exact .inl rfl
      exact Int.lt_of_add_one_le (hsucc ▸ Int.ofNat_le.mpr (hle.trans hheld))
    · exact hbelow f hf

section Runs

variable {server : HttpServer H} {wakeupFd : Fd} {events : List (LoopEvent H)}

theorem created_counted (h0 : server.Started) (hK : ∀ fd, server.isOpen fd = true ↔ fd ∈ K)
    (hwakeup : wakeupFd ∈ K) : (created server wakeupFd).Counted K := by
  have htheirs : (fun fd => server.isOpen fd = true) = (· ∈ K) := funext fun fd => propext (hK fd)
  have ha := created_accounted h0 wakeupFd
  rw [htheirs] at ha
  refine ⟨created_inv h0 ((hK wakeupFd).mpr hwakeup), created_paced h0, ha, hwakeup, ?_⟩
  rintro fd (hl | hc)
  · cases hl
  · exact absurd (h0.connections fd) hc

/-- **What `select` can take.** When the rest of the program keeps the descriptors `K` open and the
system gives out the lowest free ones, then in every run of the loop `FD_SET` is only used in
range exactly if `K` and the sockets of the server are never more than `FD_SETSIZE`. -/
theorem capacity [HeadMemory] (h0 : server.Started) (hK : ∀ fd, server.isOpen fd = true ↔ fd ∈ K)
    (hwakeup : wakeupFd ∈ K) (hrange : ∀ fd ∈ K, 0 ≤ fd ∧ fd < setSize)
    (hposix : (machine (created server wakeupFd)).Each Posix events) :
    (machine (created server wakeupFd)).Always (InRange setSize) events ↔
      (machine (created server wakeupFd)).Always (fun s => K.card + s.held ≤ setSize) events := by
  have hinit := created_counted h0 hK hwakeup
  have hall : ∀ e ∈ events, True := fun _ _ => trivial
  constructor
  · intro h
    have hfits {s : Serving H} (hs : s.Counted K) (hin : s.InRange setSize) :
        K.card + s.held ≤ setSize :=
      hs.held_le (fun fd hfd => (hrange fd hfd).1) ((hs.inRange_iff hrange).mp hin)
    refine Machine.AlwaysFrom.mono (P := fun s => s.Counted K ∧ K.card + s.held ≤ setSize)
      (fun _ hs => hs.2) (Machine.alwaysFrom_of_each (fun hs _ hp hin hstep => ?_) hall
        ⟨hinit, hfits hinit h.head⟩ h hposix)
    have hs' := (hs.1.next hp (machine_step hstep)).1
    exact ⟨hs', hfits hs' hin⟩
  · intro h
    have hbelow : (created server wakeupFd).Below setSize :=
      fun fd hfd => (hrange fd ((hK fd).mp hfd)).2
    refine Machine.AlwaysFrom.mono (P := fun s => s.Counted K ∧ s.Below setSize)
      (fun _ hs => (hs.1.inRange_iff hrange).mpr hs.2)
      (Machine.alwaysFrom_of_each (fun hs _ hp hheld hstep => ?_) hall ⟨hinit, hbelow⟩ h hposix)
    exact ⟨(hs.1.next hp (machine_step hstep)).1, hs.1.below hp (machine_step hstep) hs.2 hheld⟩

end Runs

def alone : HttpServer Unit := { wheel := .new 10 4 ⟨0⟩, isOpen := fun fd => fd = 0 }

def oneClient : List (LoopEvent Unit) := [.start 1, reports { read := [1] }, .handle (accepts 2)]

theorem alone_started : alone.Started := ⟨.new (by decide) _ _, rfl, fun _ => rfl, rfl, rfl⟩

theorem oneClient_posix : (machine (created alone 0)).Each Posix oneClient := by
  have hzero (f : Int) (h0 : 0 ≤ f) (h1 : f < 1) : f = 0 := by omega
  have hone (f : Int) (h0 : 0 ≤ f) (h2 : f < 2) : f = 0 ∨ f = 1 := by omega
  refine ⟨fun fd hfd => ?_, ?_⟩
  · obtain rfl : fd = 1 := hfd
    refine ⟨by decide, fun f h0 h1 => ?_⟩
    rw [hzero f h0 h1]
    rfl
  rintro s ⟨⟩
  refine ⟨(fun _ h => by cases h), ?_⟩
  rintro s ⟨⟩
  refine ⟨fun fd hfd => ?_, fun _ _ => trivial⟩
  obtain rfl : 2 = fd := Option.some.inj hfd
  refine ⟨by decide, fun f h0 h2 => ?_⟩
  rcases hone f h0 h2 with rfl | rfl <;> rfl

/-- Three descriptors are enough, and two are not. -/
theorem capacity_oneClient : (machine (created alone 0)).Always (InRange 3) oneClient ∧
    ¬ (machine (created alone 0)).Always (InRange 2) oneClient := by
  have hK (fd : Fd) : alone.isOpen fd = true ↔ fd ∈ ({0} : Finset Fd) :=
    decide_eq_true_iff.trans Finset.mem_singleton.symm
  constructor
  · refine (capacity alone_started hK (by decide) (by decide) oneClient_posix).mpr ⟨by decide, ?_⟩
    rintro s ⟨⟩
    refine ⟨by decide, ?_⟩
    rintro s ⟨⟩
    refine ⟨by decide, ?_⟩
    rintro s ⟨⟩
    exact show 1 + _ ≤ 3 by decide
  · intro h
    have hheld := (capacity alone_started hK (by decide) (by decide) oneClient_posix).mp h
    have hlast := (((hheld.2 _ rfl).2 _ rfl).2 _ rfl).head
    exact absurd hlast (by decide)

end Serving

end Hound.Http
