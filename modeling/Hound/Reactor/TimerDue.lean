import Hound.Lib.Machine
import Hound.Reactor.TimerWheelInv

/-!
# Due timers

`tick` sets `last_tick_` to `now` and only then measures `now.diff_ms(last_tick_)`, so
the elapsed time is 0, the hand stands still and no callback runs (`Timers.tick_eq`).
`punctual_iff` says which runs of the wheel get what they are owed all the same: those
in which no one-shot timer ever falls due.
-/

namespace Hound.Reactor

open Hound.Lib

variable {κ : Type}

/-- **A tick does nothing but set `last_tick_`.** -/
theorem Timers.tick_eq (cbs : Callbacks κ) (now : Timestamp) (fuel : Nat) (s : Timers κ) :
    s.tick cbs now fuel = .ok { s with wheel := { s.wheel with lastTick := now } } := by
  simp [tick]

/-! ## Runs -/

/-- A wheel with its history. `live` holds the one-shot timers that were added and not
cancelled since; ids below `lastMark` were given out before the last tick, those below
`prevMark` before the one before. -/
structure TimerRun (κ : Type) where
  timers : Timers κ
  live : List (Int × Timestamp) := []
  lastMark : Int := 1
  prevMark : Int := 1

inductive TimerOp (κ : Type) where
  | call (c : TimerCall κ)
  | tick (now : Timestamp)

namespace TimerRun

abbrev wheel (s : TimerRun κ) : TimerWheel κ := s.timers.wheel

def call (s : TimerRun κ) (c : TimerCall κ) : TimerRun κ :=
  { s with
    timers := { s.timers with wheel := s.wheel.call c }
    live :=
      match c with
      | .addTimer when _ => s.live ++ [(s.wheel.nextTimerId, when)]
      | .addRepeating when interval _ =>
        if interval.positive then s.live else s.live ++ [(s.wheel.nextTimerId, when)]
      | .cancel timerId => s.live.filter (·.1 ≠ timerId) }

end TimerRun

/-- The calls on a wheel made at time `created`; the times of the ticks do not decrease. -/
def timerMachine (cbs : Callbacks κ) (fuel tickMs slotCount : Nat) (created : Timestamp) :
    Machine (TimerRun κ) (TimerOp κ) where
  init := { timers := { wheel := .new tickMs slotCount created } }
  step s
    | .call c => some (s.call c)
    | .tick now =>
      if s.wheel.lastTick.us ≤ now.us then
        match s.timers.tick cbs now fuel with
        | .ok timers =>
          some { s with timers, lastMark := s.wheel.nextTimerId, prevMark := s.lastMark }
        | .error _ => none
      else none

/-- What the wheel owes: a one-shot timer that was there at the last tick but one is not
left pending two ticks past its expiration, its callback runs at most once, and no
callback runs more than one tick early. -/
structure Punctual (s : TimerRun κ) : Prop where
  prompt : ∀ t ∈ s.wheel.pending, t.OneShot → t.id < s.prevMark →
    s.wheel.lastTick.us - 2 * s.wheel.tickMs * 1000 < t.expiration.us
  once : ((s.timers.ran.filter (·.timer.OneShot)).map (·.timer.id)).Nodup
  notEarly : ∀ f ∈ s.timers.ran, f.timer.expiration.us ≤ f.now.us + s.wheel.tickMs * 1000

/-- A tick made while no live one-shot timer that was there at the tick before is two
ticks past its expiration. -/
def NotOverdue (s : TimerRun κ) : TimerOp κ → Prop
  | .call _ => True
  | .tick now => ∀ p ∈ s.live, p.1 < s.lastMark → now.us - 2 * s.wheel.tickMs * 1000 < p.2.us

/-! ## The invariant -/

structure TimerRun.Inv (s : TimerRun κ) : Prop where
  wheel : s.wheel.Inv
  ran : s.timers.ran = []
  marks : s.prevMark ≤ s.lastMark ∧ s.lastMark ≤ s.wheel.nextTimerId
  live : ∀ {id : Int} {e : Timestamp}, (id, e) ∈ s.live ↔
    ∃ t ∈ s.wheel.pending, t.OneShot ∧ t.id = id ∧ t.expiration = e

namespace TimerRun

variable {s : TimerRun κ}

theorem Inv.init {slotCount : Nat} (h : 0 < slotCount) (tickMs : Nat) (created : Timestamp) :
    ({ timers := { wheel := .new tickMs slotCount created } } : TimerRun κ).Inv where
  wheel := .new h tickMs created
  ran := rfl
  marks := ⟨Int.le_refl _, Int.le_refl _⟩
  live := by simp [TimerRun.wheel]

/-- An add puts a one-shot timer on both sides, or a repeating one on neither. -/
theorem Inv.live_add (hs : s.Inv) (when : Timestamp) (interval : Seconds) (callback : κ)
    {id : Int} {e : Timestamp} :
    ((id, e) ∈ if interval.positive then s.live else s.live ++ [(s.wheel.nextTimerId, when)]) ↔
      ∃ t ∈ (s.wheel.addRepeating when interval callback).pending,
        t.OneShot ∧ t.id = id ∧ t.expiration = e := by
  simp only [TimerWheel.mem_pending_addRepeating hs.wheel, or_and_right, exists_or,
    exists_eq_left, ← hs.live]
  cases hp : interval.positive
  · have hnew : (s.wheel.added when interval callback).OneShot := hp
    rw [if_neg Bool.false_ne_true, List.mem_append, List.mem_singleton, Prod.mk.injEq]
    constructor
    · rintro (h | ⟨rfl, rfl⟩)
      · exact .inr h
      · exact .inl ⟨hnew, rfl, rfl⟩
    · rintro (⟨-, rfl, rfl⟩ | h)
      · exact .inr ⟨rfl, rfl⟩
      · exact .inl h
  · have hold : ¬ (s.wheel.added when interval callback).OneShot := by
      simp [Timer.OneShot, TimerWheel.added, hp]
    simp [hold]

theorem Inv.call (hs : s.Inv) (c : TimerCall κ) : (s.call c).Inv where
  wheel := hs.wheel.call c
  ran := hs.ran
  marks := by
    refine ⟨hs.marks.1, Int.le_trans hs.marks.2 ?_⟩
    cases c with
    | addTimer | addRepeating => exact Int.le_of_lt (Int.lt_succ _)
    | cancel timerId => exact Int.le_of_eq (TimerWheel.nextTimerId_cancel timerId).symm
  live := by
    cases c with
    | addTimer when callback => exact hs.live_add when ⟨false, 0⟩ callback
    | addRepeating when interval callback => exact hs.live_add when interval callback
    | cancel timerId =>
      intro id e
      change (id, e) ∈ s.live.filter (·.1 ≠ timerId) ↔
        ∃ t ∈ (s.wheel.cancel timerId).pending, _
      simp only [List.mem_filter, hs.live, TimerWheel.mem_pending_cancel hs.wheel,
        decide_eq_true_eq]
      constructor
      · rintro ⟨⟨t, ht, ho, rfl, rfl⟩, hne⟩
        exact ⟨t, ⟨ht, hne⟩, ho, rfl, rfl⟩
      · rintro ⟨t, ⟨ht, hne⟩, ho, rfl, rfl⟩
        exact ⟨⟨t, ht, ho, rfl, rfl⟩, hne⟩

end TimerRun

section Runs

variable {cbs : Callbacks κ} {fuel tickMs slotCount : Nat} {created : Timestamp}
  {s s' : TimerRun κ}

theorem timerMachine_step {op : TimerOp κ}
    (h : (timerMachine cbs fuel tickMs slotCount created).step s op = some s') :
    (∃ c, op = .call c ∧ s' = s.call c) ∨
    (∃ now, op = .tick now ∧ s.wheel.lastTick.us ≤ now.us ∧
      s' = { s with
        timers := { s.timers with wheel := { s.wheel with lastTick := now } }
        lastMark := s.wheel.nextTimerId
        prevMark := s.lastMark }) := by
  cases op with
  | call c => exact .inl ⟨c, rfl, (Option.some.inj h).symm⟩
  | tick now =>
    simp only [timerMachine, Timers.tick_eq] at h
    split at h
    · next hle => exact .inr ⟨now, rfl, hle, (Option.some.inj h).symm⟩
    · cases h

theorem timerMachine_kept :
    (timerMachine cbs fuel tickMs slotCount created).Kept TimerRun.Inv := by
  intro s s' op hs h
  obtain ⟨c, rfl, rfl⟩ | ⟨now, rfl, -, rfl⟩ := timerMachine_step h
  · exact hs.call c
  · exact ⟨⟨hs.wheel.slots, hs.wheel.buckets, hs.wheel.next_pos, hs.wheel.id_pos, hs.wheel.id_lt,
      hs.wheel.nodup⟩, hs.ran, ⟨hs.marks.2, Int.le_refl _⟩, hs.live⟩

theorem TimerRun.Inv.punctual_of_ran (hs : s.Inv) :
    Punctual s ↔ ∀ t ∈ s.wheel.pending, t.OneShot → t.id < s.prevMark →
      s.wheel.lastTick.us - 2 * s.wheel.tickMs * 1000 < t.expiration.us :=
  ⟨fun h => h.prompt, fun h => ⟨h, by simp [hs.ran], by simp [hs.ran]⟩⟩

theorem TimerRun.Inv.punctual_call (hs : s.Inv) (hp : Punctual s) (c : TimerCall κ) :
    Punctual (s.call c) := by
  have fresh (when : Timestamp) (interval : Seconds) (callback : κ) :
      ∀ t ∈ (s.wheel.addRepeating when interval callback).pending, t.OneShot →
        t.id < s.prevMark →
        s.wheel.lastTick.us - 2 * s.wheel.tickMs * 1000 < t.expiration.us := by
    intro t ht ho hlt
    rcases (TimerWheel.mem_pending_addRepeating hs.wheel).mp ht with rfl | ht
    · have hmarks := hs.marks
      have : s.wheel.nextTimerId < s.prevMark := hlt
      omega
    · exact hp.prompt t ht ho hlt
  rw [(hs.call c).punctual_of_ran]
  cases c with
  | addTimer when callback => exact fresh when _ callback
  | addRepeating when interval callback => exact fresh when interval callback
  | cancel timerId =>
    intro t ht ho hlt
    have heq : (s.wheel.cancel timerId).lastTick = s.wheel.lastTick ∧
        (s.wheel.cancel timerId).tickMs = s.wheel.tickMs := by
      unfold TimerWheel.cancel; split <;> exact ⟨rfl, rfl⟩
    change (s.wheel.cancel timerId).lastTick.us - 2 * (s.wheel.cancel timerId).tickMs * 1000 < _
    rw [heq.1, heq.2]
    exact hp.prompt t ((TimerWheel.mem_pending_cancel hs.wheel).mp ht).1 ho hlt

theorem punctual_step {op : TimerOp κ} (hs : s.Inv) (hp : Punctual s)
    (h : (timerMachine cbs fuel tickMs slotCount created).step s op = some s') :
    Punctual s' ↔ NotOverdue s op := by
  have hs' := timerMachine_kept hs h
  obtain ⟨c, rfl, rfl⟩ | ⟨now, rfl, -, rfl⟩ := timerMachine_step h
  · exact ⟨fun _ => trivial, fun _ => hs.punctual_call hp c⟩
  · rw [hs'.punctual_of_ran]
    constructor
    · intro h p hp hlt
      obtain ⟨t, ht, ho, hid, he⟩ := hs.live.mp hp
      rw [← hid] at hlt
      rw [← he]
      exact h t ht ho hlt
    · intro h t ht ho hlt
      exact h (t.id, t.expiration) (hs.live.mpr ⟨t, ht, ho, rfl, rfl⟩) hlt

/-- **Timers fire on time exactly when there is nothing to fire.** In a run of adds,
cancels and ticks the wheel always gives what it owes if and only if no tick comes while
a one-shot timer added before the tick before it, and not cancelled, is overdue. -/
theorem punctual_iff (hslots : 0 < slotCount) {ops : List (TimerOp κ)}
    (h : (timerMachine cbs fuel tickMs slotCount created).run ops = some s) :
    (timerMachine cbs fuel tickMs slotCount created).Always Punctual ops ↔
      (timerMachine cbs fuel tickMs slotCount created).Each NotOverdue ops := by
  have h0 : ({ timers := { wheel := .new tickMs slotCount created } } : TimerRun κ).Inv :=
    .init hslots tickMs created
  exact Machine.always_iff_each (I := TimerRun.Inv) h0
    (h0.punctual_of_ran.mpr (by simp [TimerRun.wheel]))
    timerMachine_kept punctual_step h

end Runs

/-- A timer 5 ms ahead on the default wheel, a tick at once and one a second later. -/
def oneSecondLate : List (TimerOp Unit) :=
  [.call (.addTimer ⟨5000⟩ ()), .tick ⟨0⟩, .tick ⟨1000000⟩]

/-- The default wheel of an `EventLoop`, made at time 0, under callbacks that do nothing. -/
def defaultWheel : Machine (TimerRun Unit) (TimerOp Unit) :=
  timerMachine (fun _ _ => []) 0 10 6000 ⟨0⟩

theorem oneSecondLate_iff :
    defaultWheel.Always Punctual oneSecondLate ↔ defaultWheel.Each NotOverdue oneSecondLate :=
  punctual_iff (by decide) rfl

/-- The timer is still pending after the second tick. -/
theorem oneSecondLate_pending : ¬ defaultWheel.Always Punctual oneSecondLate := by
  intro h
  obtain ⟨-, h⟩ := h
  obtain ⟨-, h⟩ := h _ rfl
  obtain ⟨-, h⟩ := h _ rfl
  have hlast : Punctual _ := h _ rfl
  have hw : (TimerWheel.new 10 6000 ⟨0⟩ : TimerWheel Unit).Inv := .new (by decide) _ _
  have hlate := hlast.prompt _ ((TimerWheel.mem_pending_addRepeating hw).mpr (.inl rfl)) rfl
    (show (1 : Int) < 2 by decide)
  exact absurd hlate (by decide)

end Hound.Reactor
