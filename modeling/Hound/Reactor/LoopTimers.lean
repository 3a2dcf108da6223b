import Hound.Reactor.NextTimeout

/-!
# The timers of a loop

An iteration of `EventLoop::loop` polls with the timeout that `next_timeout_ms` gives, calls its
channels, ticks the wheel at the time the poll ended and runs its tasks; callbacks and tasks set
timers and cancel them. `tick` never moves the hand, so a timer stays as far away as it was when
it was set, whatever time goes by: the loop is a `StoppedClock`, which wakes up for its nearest
timer over and over and fires none (`timeouts_stopped`).
-/

namespace Hound.Reactor

open Hound.Lib

variable {κ : Type}

/-! ## The loop -/

/-- The timers of a loop, and the timeouts its polls were made with. -/
structure LoopTimers (κ : Type) where
  timers : Timers κ
  timeouts : List Int := []

namespace LoopTimers

abbrev wheel (s : LoopTimers κ) : TimerWheel κ := s.timers.wheel

def calls (s : LoopTimers κ) (cs : List (TimerCall κ)) : LoopTimers κ :=
  { s with timers := { s.timers with wheel := cs.foldl TimerWheel.call s.wheel } }

end LoopTimers

/-- An iteration: the calls that the callbacks of the channels make, when the poll ended, and the
calls that the tasks make. -/
structure Iteration (κ : Type) where
  dispatched : List (TimerCall κ)
  pollTime : Timestamp
  tasks : List (TimerCall κ)

/-- A loop on a new wheel, on which `setup` is called before `loop()`. -/
def loopTimers (cbs : Callbacks κ) (fuel tickMs slotCount : Nat) (created : Timestamp)
    (setup : List (TimerCall κ)) : Machine (LoopTimers κ) (Iteration κ) where
  init := LoopTimers.calls { timers := { wheel := .new tickMs slotCount created } } setup
  step s i :=
    match (s.calls i.dispatched).timers.tick cbs i.pollTime fuel with
    | .ok timers =>
      some (LoopTimers.calls { timers, timeouts := s.timeouts ++ [s.wheel.nextTimeoutMs] } i.tasks)
    | .error _ => none

/-! ## The stopped clock -/

/-- Timers, by the ticks from when they were set to when they are due. -/
structure StoppedClock where
  book : List (Int × Nat) := []
  nextTimerId : Int := 1
  lastTick : Timestamp
  timeouts : List Int := []

namespace StoppedClock

variable (tickMs slotCount : Nat)

def call (c : StoppedClock) (t : TimerCall κ) : StoppedClock :=
  match t with
  | .addTimer when _ | .addRepeating when _ _ =>
    { c with
      book := c.book ++ [(c.nextTimerId, (when.diffMs c.lastTick).toNat / tickMs % slotCount)]
      nextTimerId := c.nextTimerId + 1 }
  | .cancel timerId => { c with book := c.book.filter (·.1 ≠ timerId) }

def calls (c : StoppedClock) (ts : List (TimerCall κ)) : StoppedClock :=
  ts.foldl (call tickMs slotCount) c

def sleep (c : StoppedClock) : Int :=
  match (c.book.map (·.2)).min? with
  | none => -1
  | some ticks => (ticks * tickMs : Nat)

def iterate (c : StoppedClock) (i : Iteration κ) : StoppedClock :=
  let timeouts := c.timeouts ++ [c.sleep tickMs]
  { c.calls tickMs slotCount i.dispatched with lastTick := i.pollTime, timeouts }.calls
    tickMs slotCount i.tasks

end StoppedClock

/-- The wheel is in the state of the clock: every timer of the book is in the slot that is as far
from slot 0, where the hand stays. -/
structure TimerWheel.Shows (w : TimerWheel κ) (c : StoppedClock) : Prop where
  books : w.Books
  hand : w.currentSlot = 0
  lastTick : w.lastTick = c.lastTick
  nextTimerId : w.nextTimerId = c.nextTimerId
  slots : ∀ {id : Int} {i : Nat}, (id, i) ∈ c.book ↔ ∃ t ∈ w.slot i, t.id = id

namespace TimerWheel

variable {w : TimerWheel κ} {c : StoppedClock}

theorem Shows.addRepeating (h : w.Shows c) (when : Timestamp) (interval : Seconds) (callback : κ) :
    (w.addRepeating when interval callback).Shows
      (c.call w.tickMs w.slotCount (.addRepeating when interval callback)) where
  books := h.books.addRepeating when interval callback
  hand := h.hand
  lastTick := h.lastTick
  nextTimerId := congrArg (· + 1) h.nextTimerId
  slots := by
    intro id i
    have hslot : w.slotFor when = (when.diffMs c.lastTick).toNat / w.tickMs % w.slotCount := by
      rw [slotFor, h.hand, h.lastTick, Nat.zero_add]
    rw [slot_addRepeating h.books.inv, hslot]
    show (id, i) ∈ c.book ++ [_] ↔ _
    rw [List.mem_append, h.slots, List.mem_singleton, Prod.mk.injEq, ← h.nextTimerId]
    constructor
    · rintro (⟨t, ht, rfl⟩ | ⟨rfl, rfl⟩)
      · exact ⟨t, List.mem_append_left _ ht, rfl⟩
      · refine ⟨w.added when interval callback, List.mem_append_right _ ?_, rfl⟩
        rw [if_pos rfl]
        exact List.mem_singleton_self _
    · rintro ⟨t, ht, rfl⟩
      rcases List.mem_append.mp ht with ht | ht
      · exact .inl ⟨t, ht, rfl⟩
      · obtain ⟨hi, ht⟩ := List.mem_ite_nil_right.mp ht
        rw [List.mem_singleton.mp ht]
        exact .inr ⟨rfl, hi.symm⟩

theorem Shows.cancel (h : w.Shows c) (timerId : Int) :
    (w.cancel timerId).Shows { c with book := c.book.filter (·.1 ≠ timerId) } where
  books := h.books.cancel timerId
  hand := (currentSlot_cancel timerId).trans h.hand
  lastTick := (lastTick_cancel timerId).trans h.lastTick
  nextTimerId := (nextTimerId_cancel timerId).trans h.nextTimerId
  slots := by
    intro id i
    simp only [slot_cancel h.books.inv, List.mem_filter, h.slots, decide_eq_true_eq]
    constructor
    · rintro ⟨⟨t, ht, rfl⟩, hne⟩
      exact ⟨t, ⟨ht, hne⟩, rfl⟩
    · rintro ⟨t, ⟨ht, hne⟩, rfl⟩
      exact ⟨⟨t, ht, rfl⟩, hne⟩

theorem Shows.call (h : w.Shows c) : ∀ t : TimerCall κ,
    (w.call t).Shows (c.call w.tickMs w.slotCount t)
  | .addTimer when callback => h.addRepeating when _ callback
  | .addRepeating when interval callback => h.addRepeating when interval callback
  | .cancel timerId => h.cancel timerId

theorem Shows.calls (h : w.Shows c) (ts : List (TimerCall κ)) :
    (ts.foldl TimerWheel.call w).Shows (c.calls w.tickMs w.slotCount ts) := by
  induction ts generalizing w c with
  | nil => exact h
  | cons t ts ih =>
    have hframe := call_sameFrame w t
    have := ih (h.call t)
    rwa [hframe.tickMs, hframe.slotCount] at this

theorem Shows.sleep (h : w.Shows c) (hrange : w.slotCount * w.tickMs < 2 ^ 31) :
    w.nextTimeoutMs = c.sleep w.tickMs := by
  cases hmin : (c.book.map (·.2)).min? with
  | none =>
    have hbook : c.book = [] := List.map_eq_nil_iff.mp (List.min?_eq_none_iff.mp hmin)
    have hpending : w.pending = [] := by
      refine List.eq_nil_iff_forall_not_mem.mpr fun t ht => ?_
      obtain ⟨i, hi⟩ := mem_pending_iff.mp ht
      have := h.slots.mpr ⟨t, hi, rfl⟩
      rw [hbook] at this
      cases this
    rw [nextTimeoutMs_nil h.books hpending, StoppedClock.sleep, hmin]
  | some o =>
    obtain ⟨hmem, hleast⟩ := List.min?_eq_some_iff.mp hmin
    obtain ⟨⟨id, o⟩, hbook, rfl⟩ := List.mem_map.mp hmem
    obtain ⟨t, ht, -⟩ := h.slots.mp hbook
    have hlt := slot_lt h.books.inv ht
    have hslot : ∀ j < w.slotCount, (w.currentSlot + j) % w.slotCount = j := by
      intro j hj
      rw [h.hand, Nat.zero_add, Nat.mod_eq_of_lt hj]
    have hnear : w.nearest = some o := by
      refine List.find?_range_eq_some.mpr ⟨?_, List.mem_range.mpr hlt, fun j hj => ?_⟩
      · rw [hslot o hlt]
        cases hnil : w.slot o with
        | nil =>
          rw [hnil] at ht
          cases ht
        | cons => rfl
      · rw [hslot j (Nat.lt_trans hj hlt)]
        cases hnil : w.slot j with
        | nil => rfl
        | cons u us =>
          have hu : (u.id, j) ∈ c.book := h.slots.mpr ⟨u, hnil ▸ List.mem_cons_self, rfl⟩
          exact absurd hj (Nat.not_lt.mpr (hleast j (List.mem_map.mpr ⟨_, hu, rfl⟩)))
    have hcount : w.timerCount ≠ 0 := by
      rw [h.books.count]
      exact (List.length_pos_of_mem (mem_pending_iff.mpr ⟨o, ht⟩)).ne'
    have hsmall : o * w.tickMs < 2 ^ 31 :=
      Nat.lt_of_le_of_lt (Nat.mul_le_mul_right _ (Nat.le_of_lt hlt)) hrange
    rw [nextTimeoutMs, if_neg hcount, hnear, StoppedClock.sleep, hmin]
    exact toInt_eq hsmall

end TimerWheel

/-! ## Runs -/

theorem StoppedClock.timeouts_calls (tickMs slotCount : Nat) (ts : List (TimerCall κ)) :
    ∀ c : StoppedClock, (c.calls tickMs slotCount ts).timeouts = c.timeouts := by
  induction ts with
  | nil => exact fun _ => rfl
  | cons t ts ih =>
    intro c
    refine (ih _).trans ?_
    cases t <;> rfl

section Runs

variable {cbs : Callbacks κ} {fuel tickMs slotCount : Nat} {created : Timestamp}
  {setup : List (TimerCall κ)}

structure LoopTimers.Follows (s : LoopTimers κ) (tickMs slotCount : Nat) (c : StoppedClock) :
    Prop where
  shows : s.wheel.Shows c
  tickMs_eq : s.wheel.tickMs = tickMs
  slotCount_eq : s.wheel.slotCount = slotCount
  timeouts : s.timeouts = c.timeouts
  ran : s.timers.ran = []

theorem LoopTimers.Follows.calls {s : LoopTimers κ} {c : StoppedClock}
    (h : s.Follows tickMs slotCount c) (ts : List (TimerCall κ)) :
    (s.calls ts).Follows tickMs slotCount (c.calls tickMs slotCount ts) where
  shows := by
    have := h.shows.calls ts
    rwa [h.tickMs_eq, h.slotCount_eq] at this
  tickMs_eq := (TimerWheel.calls_sameFrame ts s.wheel).tickMs.trans h.tickMs_eq
  slotCount_eq := (TimerWheel.calls_sameFrame ts s.wheel).slotCount.trans h.slotCount_eq
  timeouts := h.timeouts.trans (StoppedClock.timeouts_calls ..).symm
  ran := h.ran

theorem LoopTimers.Follows.iterate {s : LoopTimers κ} {c : StoppedClock}
    (h : s.Follows tickMs slotCount c) (hrange : slotCount * tickMs < 2 ^ 31) (i : Iteration κ) :
    ∃ s', (loopTimers cbs fuel tickMs slotCount created setup).step s i = some s' ∧
      s'.Follows tickMs slotCount (c.iterate tickMs slotCount i) := by
  have hd := h.calls i.dispatched
  have hsleep : s.wheel.nextTimeoutMs = c.sleep tickMs := by
    rw [h.shows.sleep (by rwa [h.tickMs_eq, h.slotCount_eq]), h.tickMs_eq]
  simp only [loopTimers, Timers.tick_eq]
  refine ⟨_, rfl, LoopTimers.Follows.calls ?_ i.tasks⟩
  exact
    { shows :=
        { books := hd.shows.books.ticked i.pollTime
          hand := hd.shows.hand
          lastTick := rfl
          nextTimerId := hd.shows.nextTimerId
          slots := hd.shows.slots }
      tickMs_eq := hd.tickMs_eq
      slotCount_eq := hd.slotCount_eq
      timeouts := by rw [hsleep, h.timeouts]
      ran := hd.ran }

/-- **The loop's timers stand still.** Whatever is set and cancelled, and however late the polls
end, an iteration never fails, no timer is ever fired, and every poll is made with the way to the
nearest timer that is not cancelled, as far as it was when it was set. -/
theorem timeouts_stopped (cbs : Callbacks κ) (fuel : Nat) (created : Timestamp)
    (setup : List (TimerCall κ)) (hslots : 0 < slotCount) (hrange : slotCount * tickMs < 2 ^ 31)
    (iterations : List (Iteration κ)) :
    ∃ s, (loopTimers cbs fuel tickMs slotCount created setup).run iterations = some s ∧
      s.timers.ran = [] ∧
      s.timeouts = (iterations.foldl (StoppedClock.iterate tickMs slotCount)
        (StoppedClock.calls tickMs slotCount { lastTick := created } setup)).timeouts := by
  have hinit : LoopTimers.Follows
      ({ timers := { wheel := .new tickMs slotCount created } } : LoopTimers κ)
      tickMs slotCount { lastTick := created } :=
    { shows :=
        { books := .new hslots tickMs created
          hand := rfl
          lastTick := rfl
          nextTimerId := rfl
          slots := by
            intro id i
            refine iff_of_false (fun h => by cases h) ?_
            rintro ⟨t, ht, -⟩
            have := TimerWheel.mem_pending_iff.mpr ⟨i, ht⟩
            rw [TimerWheel.pending_new] at this
            cases this }
      tickMs_eq := rfl
      slotCount_eq := rfl
      timeouts := rfl
      ran := rfl }
  have hrun : ∀ (is : List (Iteration κ)) {s : LoopTimers κ} {c : StoppedClock},
      s.Follows tickMs slotCount c →
      ∃ s', (loopTimers cbs fuel tickMs slotCount created setup).runFrom s is = some s' ∧
        s'.Follows tickMs slotCount (is.foldl (StoppedClock.iterate tickMs slotCount) c) := by
    intro is
    induction is with
    | nil => exact fun h => ⟨_, rfl, h⟩
    | cons i is ih =>
      intro s c h
      have hiter : ∃ s₁, (loopTimers cbs fuel tickMs slotCount created setup).step s i = some s₁ ∧
          s₁.Follows tickMs slotCount (c.iterate tickMs slotCount i) := h.iterate hrange i
      obtain ⟨s₁, hstep, h1⟩ := hiter
      obtain ⟨s', hrest, h'⟩ := ih h1
      exact ⟨s', Option.bind_eq_some_iff.mpr ⟨s₁, hstep, hrest⟩, h'⟩
  obtain ⟨s, h, hs⟩ := hrun iterations (hinit.calls setup)
  exact ⟨s, h, hs.ran, hs.timeouts⟩

end Runs

/-- A connection with its timeout of 30 s, and a timer for 5 ms that is set a minute later. -/
def lateTimers : List (Iteration Unit) :=
  [⟨[], ⟨30000000⟩, []⟩, ⟨[], ⟨60000000⟩, [.addTimer ⟨60005000⟩ ()]⟩, ⟨[], ⟨60000100⟩, []⟩,
    ⟨[.cancel 2], ⟨60000200⟩, []⟩, ⟨[], ⟨90000000⟩, []⟩]

/-- The loop waits 30 s twice, spins until the short timer is cancelled, and waits again. -/
theorem timeouts_stopped_late : ∃ s, (loopTimers noCalls 0 10 6000 ⟨0⟩
      [.addTimer ⟨30000000⟩ ()]).run lateTimers = some s ∧
    s.timers.ran = [] ∧ s.timeouts = [30000, 30000, 0, 0, 30000] := by
  obtain ⟨s, hrun, hran, htimeouts⟩ := timeouts_stopped noCalls 0 ⟨0⟩
    [.addTimer ⟨30000000⟩ ()] (show 0 < 6000 by decide) (show 6000 * 10 < 2 ^ 31 by decide)
    lateTimers
  exact ⟨s, hrun, hran, htimeouts.trans (by decide +kernel)⟩

end Hound.Reactor
