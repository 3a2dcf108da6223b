import Hound.Reactor.Countdown

/-!
# `next_timeout_ms`

The event loop sleeps in `poll` for as long as `TimerWheel::next_timeout_ms` says. The scan
from the hand finds the nearest slot that holds a timer, rounds or not, so the loop wakes no
later than the hand would get to any timer: `nextTimeoutMs_never_late`.
-/

namespace Hound.Reactor

open Hound.Lib

variable {κ : Type}

namespace TimerWheel

/-- The scan of `next_timeout_ms`: how many slots on from the hand the first timers are. -/
def nearest (w : TimerWheel κ) : Option Nat :=
  (List.range w.slotCount).find? fun offset =>
    !(w.slot ((w.currentSlot + offset) % w.slotCount)).isEmpty

def nextTimeoutMs (w : TimerWheel κ) : Int :=
  if w.timerCount = 0 then -1
  else
    match w.nearest with
    | some offset => toInt (offset * w.tickMs : Nat)
    | none => toInt (w.slotCount * w.tickMs : Nat)

variable {w : TimerWheel κ}

theorem nearest_le (hw : w.Books) {i : Nat} {t : Timer κ} (ht : t ∈ w.slot i) :
    ∃ offset < w.slotCount, w.nearest = some offset ∧
      offset ≤ ahead w.slotCount w.currentSlot i := by
  obtain ⟨o, ho, hslot, hle⟩ := exists_offset hw.hand (slot_lt hw.inv ht)
  have hp : (!(w.slot ((w.currentSlot + o) % w.slotCount)).isEmpty) = true := by
    rw [hslot]
    cases hnil : w.slot i with
    | nil =>
      rw [hnil] at ht
      cases ht
    | cons => rfl
  cases hnear : w.nearest with
  | none =>
    have := List.find?_range_eq_none.mp hnear o ho
    rw [hp] at this
    cases this
  | some offset =>
    obtain ⟨-, hlt, hfirst⟩ := List.find?_range_eq_some.mp hnear
    refine ⟨offset, List.mem_range.mp hlt, rfl, Nat.le_trans (Nat.not_lt.mp fun hlt => ?_) hle⟩
    have := hfirst o hlt
    rw [hp] at this
    cases this

theorem nextTimeoutMs_nil (hw : w.Books) (h : w.pending = []) : w.nextTimeoutMs = -1 := by
  rw [nextTimeoutMs, if_pos (by rw [hw.count, h]; rfl)]

/-- With a timer in slot `i` the timeout is some ticks, no more than the hand is from the slot. -/
theorem nextTimeoutMs_eq (hw : w.Books) (hrange : w.slotCount * w.tickMs < 2 ^ 31) {i : Nat}
    {t : Timer κ} (ht : t ∈ w.slot i) :
    ∃ offset < w.slotCount, w.nextTimeoutMs = (offset * w.tickMs : Nat) ∧
      offset ≤ ahead w.slotCount w.currentSlot i := by
  obtain ⟨offset, hlt, hnear, hle⟩ := nearest_le hw ht
  have hcount : w.timerCount ≠ 0 := by
    rw [hw.count]
    exact Nat.pos_iff_ne_zero.mp (List.length_pos_of_mem (mem_pending_iff.mpr ⟨i, ht⟩))
  have hsmall : offset * w.tickMs < 2 ^ 31 :=
    Nat.lt_of_le_of_lt (Nat.mul_le_mul_right _ (Nat.le_of_lt hlt)) hrange
  refine ⟨offset, hlt, ?_, hle⟩
  rw [nextTimeoutMs, if_neg hcount, hnear]
  exact toInt_eq hsmall

end TimerWheel

/-- **The loop never oversleeps the wheel.** On a wheel that adds and cancels lead to, from any
slot of the hand, the timeout is -1 exactly when no timer is pending; otherwise it is less than
a turn of the wheel, and no later than the advance on which any of its timers fires. -/
theorem nextTimeoutMs_never_late {tickMs slotCount hand : Nat} (htick : 0 < tickMs)
    (hhand : hand < slotCount) (hrange : slotCount * tickMs < 2 ^ 31) (created : Timestamp)
    (calls : List (TimerCall κ)) {w : TimerWheel κ}
    (hw : w = calls.foldl TimerWheel.call
      { TimerWheel.new tickMs slotCount created with currentSlot := hand }) :
    (w.nextTimeoutMs = -1 ↔ w.pending = []) ∧
      (w.pending ≠ [] → 0 ≤ w.nextTimeoutMs ∧ w.nextTimeoutMs < slotCount * tickMs) ∧
      ∀ ran, ∀ t ∈ w.pending, ∀ before now, FiresOn noCalls before now ⟨w, ran⟩ t.id →
        w.nextTimeoutMs ≤ (before.length + 1) * tickMs := by
  have hnew : (TimerWheel.new tickMs slotCount created : TimerWheel κ).Books :=
    .new (Nat.zero_lt_of_lt hhand) tickMs created
  have hframe := TimerWheel.calls_sameFrame calls
    ({ TimerWheel.new tickMs slotCount created with currentSlot := hand } : TimerWheel κ)
  have hbooks : w.Books := hw ▸ (hnew.turned hhand).calls calls
  have hcount : w.slotCount = slotCount := hw ▸ hframe.slotCount
  have hms : w.tickMs = tickMs := hw ▸ hframe.tickMs
  have hrange' : w.slotCount * w.tickMs < 2 ^ 31 := by rwa [hcount, hms]
  have hbounds (hne : w.pending ≠ []) :
      0 ≤ w.nextTimeoutMs ∧ w.nextTimeoutMs < slotCount * tickMs := by
    obtain ⟨t, ht⟩ := List.exists_mem_of_ne_nil _ hne
    obtain ⟨i, hi⟩ := TimerWheel.mem_pending_iff.mp ht
    obtain ⟨offset, hlt, heq, -⟩ := TimerWheel.nextTimeoutMs_eq hbooks hrange' hi
    rw [heq, hms]
    refine ⟨Int.natCast_nonneg _, ?_⟩
    exact_mod_cast Nat.mul_lt_mul_of_pos_right (hcount ▸ hlt) htick
  refine ⟨⟨fun h => ?_, TimerWheel.nextTimeoutMs_nil hbooks⟩, hbounds, ?_⟩
  · by_contra hne
    have := (hbounds hne).1
    omega
  · rintro ran t ht before now hfires
    obtain ⟨i, hi⟩ := TimerWheel.mem_pending_iff.mp ht
    obtain ⟨offset, -, heq, hle⟩ := TimerWheel.nextTimeoutMs_eq hbooks hrange' hi
    obtain ⟨s₁, hadv, -⟩ := id hfires
    have hk := (firesOn_iff noCalls_noCancel (s := ⟨w, ran⟩) hbooks hi hadv now).mp hfires
    have hle' : offset ≤ before.length + 1 := by
      rw [hk]
      exact Nat.le_trans hle (Nat.le_add_right _ _)
    rw [heq, hms]
    exact_mod_cast Nat.mul_le_mul_right tickMs hle'

/-- A timer two slots on from the hand, and one in the next slot with two rounds to go. -/
def twoTimers : TimerWheel Unit :=
  [.addTimer ⟨25000⟩ (), .addRepeating ⟨90000⟩ ⟨true, 5000000⟩ ()].foldl TimerWheel.call
    { TimerWheel.new 10 4 ⟨0⟩ with currentSlot := 3 }

example : twoTimers.nextTimeoutMs = 10 := by decide

theorem nextTimeoutMs_never_late_two :
    (twoTimers.nextTimeoutMs = -1 ↔ twoTimers.pending = []) ∧
      (twoTimers.pending ≠ [] →
        0 ≤ twoTimers.nextTimeoutMs ∧ twoTimers.nextTimeoutMs < (4 : Nat) * (10 : Nat)) ∧
      ∀ ran, ∀ t ∈ twoTimers.pending, ∀ before now,
        FiresOn noCalls before now ⟨twoTimers, ran⟩ t.id →
          twoTimers.nextTimeoutMs ≤ (before.length + 1) * (10 : Nat) :=
  nextTimeoutMs_never_late (by decide) (by decide) (by decide) ⟨0⟩
    [.addTimer ⟨25000⟩ (), .addRepeating ⟨90000⟩ ⟨true, 5000000⟩ ()] rfl

end Hound.Reactor
