import Hound.Coro.Scheduler
import Hound.Reactor.Registration

/-!
# Waiting coroutines and what the poller watches

`Scheduler::wait_for_read` and `wait_for_write` with the channel that each of them makes and
registers, and `on_fd_ready` as the callback of the channel that is registered for the
descriptor. Nothing takes such a channel out again, and a second channel for a descriptor is
not registered; so interest and waiters agree only until an event is
delivered to a waiter, or a descriptor is waited on for both directions.
-/

namespace Hound.Coro

open Hound.Lib Hound.Reactor

/-- The channel that stands for `fd` in `channels_`. -/
def registered (p : PollState) (fd : Int) : Option Channel :=
  (p.poller.channels.lookup fd).bind p.deref

/-- The poller has a registered channel for `fd` with the interest `f`. -/
def Watches (p : PollState) (f : Channel → Bool) (fd : Int) : Prop :=
  ∃ ch, registered p fd = some ch ∧ f ch = true

structure Waits where
  sched : Scheduler := {}
  poll : PollState := {}

inductive WaitCall where
  | waitForRead (co : Nat) (fd : Int)
  | waitForWrite (co : Nat) (fd : Int)
  /-- The event that the registered channel of `fd` watches is delivered to it. -/
  | ready (fd : Int)
  deriving DecidableEq

namespace Waits

variable (s : Waits) (co : Nat) (fd : Int)

/-- `new Channel(loop_, fd)` and `enable_reading`. -/
def watchRead (p : PollState) : PollState :=
  (p.construct fd).enableReading p.heap.length { fd }

def watchWrite (p : PollState) : PollState :=
  (p.construct fd).enableWriting p.heap.length { fd }

def waitForRead : Waits := ⟨s.sched.waitForRead co fd, watchRead fd s.poll⟩

def waitForWrite : Waits := ⟨s.sched.waitForWrite co fd, watchWrite fd s.poll⟩

def onFdReady : Waits := { s with sched := s.sched.onFdReady fd }

end Waits

def waitMachine : Machine Waits WaitCall where
  init := {}
  step s
    | .waitForRead co fd => some (s.waitForRead co fd)
    | .waitForWrite co fd => some (s.waitForWrite co fd)
    | .ready fd => (registered s.poll fd).map fun _ => s.onFdReady fd

/-- Read interest where a coroutine waits for reading, and write interest where one
waits for writing. -/
def Matched (s : Waits) : Prop :=
  (∀ fd, Watches s.poll Channel.isReading fd ↔ fd ∈ s.sched.waitingForRead) ∧
    ∀ fd, Watches s.poll Channel.isWriting fd ↔ fd ∈ s.sched.waitingForWrite

/-- The call does not make a descriptor waited on for both directions, and delivers
nothing to a waiter. -/
def Undisturbed (s : Waits) : WaitCall → Prop
  | .waitForRead _ fd => fd ∉ s.sched.waitingForWrite
  | .waitForWrite _ fd => fd ∉ s.sched.waitingForRead
  | .ready fd => fd ∉ s.sched.waitingForRead ∧ fd ∉ s.sched.waitingForWrite

variable {p : PollState} {s s' : Waits} {i : WaitCall} {fd fd' : Int} {ch : Channel}

/-! ## The registered channels -/

theorem registered_eq_none (hR : Registered p) :
    registered p fd = none ↔ p.poller.channels.lookup fd = none := by
  unfold registered
  cases h : p.poller.channels.lookup fd with
  | none => simp
  | some c =>
    obtain ⟨ch, hch, -⟩ := hR fd c h
    simp [hch]

/-- A new channel for `fd` stands in `channels_` if there was none. -/
theorem registered_watch (hR : Registered p) (fd fd' : Int) (events : BitVec 32) :
    registered ((p.construct fd).update p.heap.length { fd } events) fd' =
      if fd' = fd ∧ registered p fd = none then
        some { fd, events, index := 0, addedToLoop := true }
      else registered p fd' := by
  have hself : (p.construct fd).deref p.heap.length = some { fd } :=
    PollState.deref_construct_self
  have hlookup : ((p.construct fd).update p.heap.length { fd } events).poller.channels.lookup fd' =
      if fd' = fd ∧ p.poller.channels.lookup fd = none then some p.heap.length
      else p.poller.channels.lookup fd' := PollState.lookup_update events
  by_cases hnew : fd' = fd ∧ registered p fd = none
  · rw [if_pos hnew]
    rw [if_pos ⟨hnew.1, (registered_eq_none hR).mp hnew.2⟩] at hlookup
    rw [registered, hlookup]
    exact PollState.deref_update_self hself events
  · rw [if_neg hnew]
    rw [if_neg fun h => hnew ⟨h.1, (registered_eq_none hR).mpr h.2⟩] at hlookup
    rw [registered, hlookup, registered]
    cases hl : p.poller.channels.lookup fd' with
    | none => rfl
    | some c =>
      obtain ⟨ch, hch, -⟩ := hR fd' c hl
      have hne : c ≠ p.heap.length := (PollState.lt_of_deref hch).ne
      rw [Option.bind_some, Option.bind_some, PollState.deref_update_ne hne,
        PollState.deref_construct hch, hch]

theorem watches_of_some {f : Channel → Bool} (h : registered p fd = some ch) :
    Watches p f fd ↔ f ch = true := by
  constructor
  · rintro ⟨ch', h', hf⟩
    cases h.symm.trans h'
    exact hf
  · intro hf
    exact ⟨ch, h, hf⟩

theorem not_watches_of_none {f : Channel → Bool} (h : registered p fd = none) :
    ¬ Watches p f fd := by
  rintro ⟨ch, h', -⟩
  cases h.symm.trans h'

/-! ## One step -/

/-- Every registered channel was made by one wait, for one direction. -/
structure Wired (s : Waits) : Prop where
  registered : Registered s.poll
  oneWay : ∀ fd ch, Coro.registered s.poll fd = some ch → ch.isReading = !ch.isWriting

theorem wired_init : Wired waitMachine.init :=
  ⟨registered_init, fun _ _ h => by cases h⟩

theorem wired_watch (hS : Wired s) {events : BitVec 32} {sched : Scheduler}
    (hone : ∀ fd, ({ fd, events, index := 0, addedToLoop := true } : Channel).isReading =
      !({ fd, events, index := 0, addedToLoop := true } : Channel).isWriting) :
    Wired ⟨sched, (s.poll.construct fd).update s.poll.heap.length { fd } events⟩ := by
  have hnew : Registered (s.poll.construct fd) :=
    kept_registered (i := .construct fd) hS.registered rfl
  refine ⟨registered_update hnew PollState.deref_construct_self events, fun fd' ch h => ?_⟩
  rw [registered_watch hS.registered] at h
  split at h
  · cases h
    exact hone fd
  · exact hS.oneWay fd' ch h

theorem kept_wired : waitMachine.Kept Wired := by
  intro s s' i hS h
  cases i with
  | waitForRead co fd =>
    cases h
    exact wired_watch hS fun _ => by simp [Channel.isReading, Channel.isWriting]
  | waitForWrite co fd =>
    cases h
    exact wired_watch hS fun _ => by simp [Channel.isReading, Channel.isWriting]
  | ready fd =>
    obtain ⟨_, _, rfl⟩ := Option.map_eq_some_iff.mp h
    exact ⟨hS.registered, hS.oneWay⟩

/-- One more waiter `A` for the direction `f` of `fd`, and a channel for it: interest still
agrees with the waiters of both directions unless `fd` has a waiter `B` for the other. -/
theorem watch_iff {f g : Channel → Bool} {A B : Int → Prop} (fd : Int) (events : BitVec 32)
    (hR : Registered p) (hfg : ∀ fd ch, registered p fd = some ch → f ch = !g ch)
    (hf : f { fd, events, index := 0, addedToLoop := true } = true)
    (hg : g { fd, events, index := 0, addedToLoop := true } = false)
    (hA : ∀ fd, Watches p f fd ↔ A fd) (hB : ∀ fd, Watches p g fd ↔ B fd) :
    ((∀ fd', Watches ((p.construct fd).update p.heap.length { fd } events) f fd' ↔
          fd' = fd ∨ A fd') ∧
        ∀ fd', Watches ((p.construct fd).update p.heap.length { fd } events) g fd' ↔ B fd') ↔
      ¬ B fd := by
  cases hreg : registered p fd with
  | none =>
    -- the new channel is registered, and nobody waited on `fd`
    have hnew := registered_watch hR fd fd events
    rw [if_pos ⟨rfl, hreg⟩] at hnew
    have hother : ∀ fd', fd' ≠ fd →
        registered ((p.construct fd).update p.heap.length { fd } events) fd' =
          registered p fd' := fun fd' hne => by
      rw [registered_watch hR, if_neg fun h => hne h.1]
    have hAB : ¬ A fd ∧ ¬ B fd :=
      ⟨fun h => not_watches_of_none hreg ((hA fd).mpr h),
        fun h => not_watches_of_none hreg ((hB fd).mpr h)⟩
    refine iff_of_true ⟨fun fd' => ?_, fun fd' => ?_⟩ hAB.2
    · by_cases hfd : fd' = fd
      · subst hfd
        rw [watches_of_some hnew]
        exact iff_of_true hf (.inl rfl)
      · rw [Watches, hother fd' hfd, ← Watches, hA fd']
        simp [hfd]
    · by_cases hfd : fd' = fd
      · subst hfd
        rw [watches_of_some hnew, hg]
        exact iff_of_false (by simp) hAB.2
      · rw [Watches, hother fd' hfd, ← Watches, hB fd']
  | some ch =>
    -- the channel that is registered stays the only one
    have hsame : ∀ h fd', Watches ((p.construct fd).update p.heap.length { fd } events) h fd' ↔
        Watches p h fd' := fun h fd' => by
      rw [Watches, registered_watch hR, if_neg (by simp [hreg]), ← Watches]
    simp only [hsame, hA, hB]
    have hfd : A fd ↔ ¬ B fd := by
      rw [← hA, ← hB, watches_of_some hreg, watches_of_some hreg, hfg fd ch hreg]
      simp
    constructor
    · rintro ⟨h, -⟩
      exact hfd.mp ((h fd).mpr (.inl rfl))
    · intro hn
      refine ⟨fun fd' => ⟨.inr, ?_⟩, fun _ => trivial⟩
      rintro (rfl | h)
      · exact hfd.mpr hn
      · exact h

theorem mem_waitForRead (co : Nat) : fd' ∈ (s.waitForRead co fd).sched.waitingForRead ↔
    fd' = fd ∨ fd' ∈ s.sched.waitingForRead := AList.mem_insert _

theorem mem_waitForWrite (co : Nat) : fd' ∈ (s.waitForWrite co fd).sched.waitingForWrite ↔
    fd' = fd ∨ fd' ∈ s.sched.waitingForWrite := AList.mem_insert _

theorem waitForRead_iff (hS : Wired s) (hM : Matched s) (co : Nat) :
    Matched (s.waitForRead co fd) ↔ fd ∉ s.sched.waitingForWrite := by
  have h := watch_iff fd (kNoneEvent ||| kReadEvent) hS.registered hS.oneWay
    (by simp [Channel.isReading]) (by simp [Channel.isWriting]) hM.1 hM.2
  unfold Matched
  simp only [mem_waitForRead]
  exact h

theorem waitForWrite_iff (hS : Wired s) (hM : Matched s) (co : Nat) :
    Matched (s.waitForWrite co fd) ↔ fd ∉ s.sched.waitingForRead := by
  have h := watch_iff fd (kNoneEvent ||| kWriteEvent) hS.registered
    (fun fd ch hch => by rw [hS.oneWay fd ch hch, Bool.not_not])
    (by simp [Channel.isWriting]) (by simp [Channel.isReading]) hM.2 hM.1
  unfold Matched
  simp only [mem_waitForWrite]
  exact and_comm.trans h

theorem notMem_onFdReady_read (sched : Scheduler) :
    fd ∉ (sched.onFdReady fd).waitingForRead := by
  unfold Scheduler.onFdReady
  cases hr : sched.waitingForRead.lookup fd with
  | some co => simp [Scheduler.schedule, AList.mem_erase]
  | none =>
    have hnr : fd ∉ sched.waitingForRead := AList.lookup_eq_none.mp hr
    cases sched.waitingForWrite.lookup fd <;> exact hnr

theorem notMem_onFdReady_write {sched : Scheduler} (hr : fd ∉ sched.waitingForRead) :
    fd ∉ (sched.onFdReady fd).waitingForWrite := by
  rw [Scheduler.onFdReady, AList.lookup_eq_none.mpr hr]
  cases hw : sched.waitingForWrite.lookup fd with
  | some co => simp [Scheduler.schedule, AList.mem_erase]
  | none => exact AList.lookup_eq_none.mp hw

/-- A delivered event takes its waiter out of the map and leaves the channel where it is. -/
theorem onFdReady_iff (hM : Matched s) :
    Matched (s.onFdReady fd) ↔
      fd ∉ s.sched.waitingForRead ∧ fd ∉ s.sched.waitingForWrite := by
  constructor
  · intro hM'
    have hr : fd ∉ s.sched.waitingForRead := fun h =>
      notMem_onFdReady_read s.sched ((hM'.1 fd).mp ((hM.1 fd).mpr h))
    exact ⟨hr, fun h => notMem_onFdReady_write hr ((hM'.2 fd).mp ((hM.2 fd).mpr h))⟩
  · rintro ⟨hr, hw⟩
    have hsame : s.onFdReady fd = s := by
      simp [Waits.onFdReady, Scheduler.onFdReady, AList.lookup_eq_none.mpr hr,
        AList.lookup_eq_none.mpr hw]
    rwa [hsame]

theorem wait_step_iff (hS : Wired s) (hM : Matched s) (h : waitMachine.step s i = some s') :
    Matched s' ↔ Undisturbed s i := by
  cases i with
  | waitForRead co fd =>
    cases h
    exact waitForRead_iff hS hM co
  | waitForWrite co fd =>
    cases h
    exact waitForWrite_iff hS hM co
  | ready fd =>
    obtain ⟨_, _, rfl⟩ := Option.map_eq_some_iff.mp h
    exact onFdReady_iff hM

/-! ## Runs -/

theorem matched_init : Matched waitMachine.init :=
  ⟨fun _ => iff_of_false (not_watches_of_none rfl) (AList.notMem_empty _),
    fun _ => iff_of_false (not_watches_of_none rfl) (AList.notMem_empty _)⟩

/-- **Interest and waiters.** The poller watches for each descriptor what its coroutines wait
for in every state of a run exactly when no event of the run is delivered to a waiter
and no descriptor is waited on for both directions. -/
theorem waits_matched_iff {calls : List WaitCall} (h : waitMachine.run calls = some s) :
    waitMachine.Always Matched calls ↔ waitMachine.Each Undisturbed calls :=
  Machine.always_iff_each wired_init matched_init kept_wired wait_step_iff h

/-- Two coroutines that wait on different descriptors. -/
theorem waits_matched_two :
    waitMachine.Always Matched [.waitForRead 0 5, .waitForWrite 1 6] := by
  refine (waits_matched_iff rfl).mpr ⟨AList.notMem_empty _, fun s hs => ?_⟩
  cases hs
  refine ⟨fun h => ?_, fun _ _ => trivial⟩
  rcases (mem_waitForRead 0).mp h with h | h
  · exact absurd h (by decide)
  · exact AList.notMem_empty _ h

/-- A coroutine waits to read from descriptor 5 and is woken; the channel goes on watching.
It then waits to write to 5, and nobody watches for that. -/
theorem waits_unmatched :
    ∃ s t, waitMachine.run [.waitForRead 0 5, .ready 5] = some s ∧
      Watches s.poll Channel.isReading 5 ∧ 5 ∉ s.sched.waitingForRead ∧ ¬ Matched s ∧
      waitMachine.run [.waitForRead 0 5, .ready 5, .waitForWrite 0 5] = some t ∧
      ¬ Watches t.poll Channel.isWriting 5 ∧ 5 ∈ t.sched.waitingForWrite ∧ ¬ Matched t := by
  have hwatch : Watches (waitMachine.init.waitForRead 0 5).poll Channel.isReading 5 :=
    ⟨_, rfl, rfl⟩
  have hwaits : 5 ∉ ((waitMachine.init.waitForRead 0 5).sched.onFdReady 5).waitingForRead :=
    notMem_onFdReady_read _
  refine ⟨_, _, rfl, hwatch, hwaits, fun hM => hwaits ((hM.1 5).mp hwatch), rfl, ?_,
    (mem_waitForWrite 0).mpr (.inl rfl), fun hM => ?_⟩
  · rw [watches_of_some rfl]
    decide
  · have h := (hM.2 5).mpr ((mem_waitForWrite 0).mpr (.inl rfl))
    rw [watches_of_some rfl] at h
    exact absurd h (by decide)

end Hound.Coro
