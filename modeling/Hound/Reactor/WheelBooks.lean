import Hound.Lib.Machine
import Hound.Reactor.TimerDue
import Hound.Reactor.Turn

/-!
# The bookkeeping of a wheel

Every run of adds, cancels and ticks, and of the turns of the loop in `tick` with callbacks
that do the same, keeps the wheel's books: `wheelMachine` may stop between any two turns, so
this is also what a callback finds.
-/

namespace Hound.Reactor

open Hound.Lib

variable {κ : Type}

/-! ## Rounds in range -/

/-- The timer that the call adds, if any, is due in so few rounds that `int` counts them. -/
def TimerCall.InRange (w : TimerWheel κ) (c : TimerCall κ) : Prop :=
  ∀ a ∈ c.adds, (a.1.diffMs w.lastTick).toNat / (w.tickMs * w.slotCount) < 2 ^ 31

instance (w : TimerWheel κ) (c : TimerCall κ) : Decidable (c.InRange w) :=
  inferInstanceAs (Decidable (∀ a ∈ c.adds, _))

/-- If the call adds a timer, the product that its rounds are computed from does not overflow. -/
def TimerCall.Fits (w : TimerWheel κ) (c : TimerCall κ) : Prop :=
  ∀ a ∈ c.adds, w.tickMs * w.slotCount < 2 ^ 31

instance (w : TimerWheel κ) (c : TimerCall κ) : Decidable (c.Fits w) :=
  inferInstanceAs (Decidable (∀ a ∈ c.adds, _))

namespace TimerWheel

variable {w : TimerWheel κ}

theorem Placed.rounds_eq {cs : List (TimerCall κ)} {i : Nat} {t : Timer κ}
    (h : w.Placed cs i t) (hcs : ∀ c ∈ cs, c.InRange w ∧ c.Fits w) :
    t.rounds = (w.deltaMs t / (w.tickMs * w.slotCount) : Nat) := by
  obtain ⟨c, hc, hadds⟩ := h.asked
  obtain ⟨hrange, hfits⟩ := hcs c hc
  rw [h.rounds, roundsFor_eq (hfits _ hadds)]
  exact toInt_eq (hrange _ hadds)

/-- The rounds of the pending timers are counted from above. -/
def RoundsOk (w : TimerWheel κ) : Prop := ∀ t ∈ w.pending, 0 ≤ t.rounds

theorem RoundsOk.calls (h : w.RoundsOk) (hw : w.Books) {cs : List (TimerCall κ)}
    (hcs : ∀ c ∈ cs, c.InRange w ∧ c.Fits w) : (cs.foldl TimerWheel.call w).RoundsOk := by
  intro t ht
  rcases mem_calls hw ht with ⟨hold, -⟩ | ⟨i, hnew⟩
  · exact h t hold
  · rw [hnew.rounds_eq hcs]
    exact Int.natCast_nonneg _

/-! ## Cancelling one timer -/

/-- `cancel` takes the one pending timer with this id out of its bucket and leaves everything
else in place, or does nothing. -/
structure CancelsExactly (w : TimerWheel κ) (timerId : Int) : Prop where
  none : (∀ t ∈ w.pending, t.id ≠ timerId) → w.cancel timerId = w
  one : ∀ t ∈ w.pending, t.id = timerId →
    w.pending.filter (·.id = timerId) = [t] ∧
      w.cancel timerId = { w with
        buckets := w.buckets.map (·.filter (·.id ≠ timerId))
        timerCount := w.timerCount - 1 }

theorem Books.cancelsExactly (hw : w.Books) (timerId : Int) : w.CancelsExactly timerId where
  none := cancel_unchanged
  one t ht hid := by
    have hsub : t ∈ w.pending.filter (·.id = timerId) :=
      List.mem_filter.mpr ⟨ht, by simpa using hid⟩
    have hone := map_filter_key_of_nodup hw.inv.nodup (List.mem_map.mpr ⟨t, ht, hid⟩)
    obtain ⟨u, hu⟩ := List.length_eq_one_iff.mp
      ((List.length_map ..).symm.trans (congrArg List.length hone))
    refine ⟨by rw [hu] at hsub ⊢; rw [List.mem_singleton.mp hsub], ?_⟩
    rw [← buckets_cancel hw.inv]
    unfold TimerWheel.cancel
    split
    · rfl
    · next hnone => exact absurd hid (scan_none hnone t ht)

end TimerWheel

/-! ## Runs -/

/-- A wheel in use. While the loop of `tick` is at a bucket, its iterator is there. -/
structure Wheeling (κ : Type) where
  timers : Timers κ
  it : Option Int := none
  now : Timestamp

inductive WheelOp (κ : Type) where
  | call (c : TimerCall κ)
  | tick (now : Timestamp)
  /-- The loop of a `tick` at `now` moves the hand to the next bucket. -/
  | advance (now : Timestamp)
  /-- One turn of the loop over the bucket. -/
  | turn

namespace Wheeling

abbrev wheel (s : Wheeling κ) : TimerWheel κ := s.timers.wheel

def firing (cbs : Callbacks κ) (s : Wheeling κ) : List (TimerCall κ) :=
  match s.timers.due s.it with
  | some t => Timers.firing cbs s.now s.timers.ran.length t
  | none => []

end Wheeling

def wheelMachine (cbs : Callbacks κ) (fuel tickMs slotCount : Nat) (created : Timestamp) :
    Machine (Wheeling κ) (WheelOp κ) where
  init := { timers := { wheel := .new tickMs slotCount created }, now := created }
  step s
    | .call c =>
      if s.it = none then some { s with timers := { s.timers with wheel := s.wheel.call c } }
      else none
    | .tick now =>
      if s.it = none then
        match s.timers.tick cbs now fuel with
        | .ok timers => some { s with timers, now }
        | .error _ => none
      else none
    | .advance now =>
      if s.it = none then
        some { timers := s.timers.handed, it := s.timers.handed.wheel.bucket.head?.map (·.id), now }
      else none
    | .turn =>
      match s.it with
      | none => none
      | some it =>
        match s.timers.turn cbs s.now it with
        | .ok (timers, it) => some { s with timers, it }
        | .error _ => none

def AddsInRange (cbs : Callbacks κ) (s : Wheeling κ) : WheelOp κ → Prop
  | .call c => c.InRange s.wheel
  | .turn => ∀ c ∈ s.firing cbs, c.InRange s.wheel
  | _ => True

/-- What is added is added to a wheel whose turn is an `int` number of milliseconds. -/
def AddsFit (cbs : Callbacks κ) (s : Wheeling κ) : WheelOp κ → Prop
  | .call c => c.Fits s.wheel
  | .turn => ∀ c ∈ s.firing cbs, c.Fits s.wheel
  | _ => True

/-- The books of a wheel as its users see them. -/
structure WellKept (w : TimerWheel κ) : Prop where
  distinct : (w.pending.map (·.id)).Nodup
  fresh : ∀ t ∈ w.pending, t.id < w.nextTimerId
  hand : w.currentSlot < w.slotCount
  count : w.timerCount = w.buckets.flatten.length
  rounds : ∀ t ∈ w.pending, 0 ≤ t.rounds
  cancel : ∀ timerId, w.CancelsExactly timerId

theorem TimerWheel.Books.wellKept {w : TimerWheel κ} (hw : w.Books) (hr : w.RoundsOk) :
    WellKept w where
  distinct := hw.inv.nodup
  fresh := hw.inv.id_lt
  hand := hw.hand
  count := hw.count
  rounds := hr
  cancel := hw.cancelsExactly

section Runs

variable {cbs : Callbacks κ} {fuel tickMs slotCount : Nat} {created : Timestamp}
  {s s' : Wheeling κ}

theorem wheelMachine_step {op : WheelOp κ}
    (h : (wheelMachine cbs fuel tickMs slotCount created).step s op = some s') :
    (∃ c, op = .call c ∧ s'.wheel = s.wheel.call c) ∨
    (∃ now, op = .tick now ∧ s'.wheel = { s.wheel with lastTick := now }) ∨
    (∃ now, op = .advance now ∧ s'.timers = s.timers.handed) ∨
    (op = .turn ∧ ∃ it it', s.it = some it ∧
      s.timers.turn cbs s.now it = .ok (s'.timers, it')) := by
  cases op with
  | call c =>
    simp only [wheelMachine, Option.ite_none_right_eq_some, Option.some.injEq] at h
    exact .inl ⟨c, rfl, by rw [← h.2]⟩
  | tick now =>
    simp only [wheelMachine, Timers.tick_eq, Option.ite_none_right_eq_some,
      Option.some.injEq] at h
    exact .inr (.inl ⟨now, rfl, by rw [← h.2]⟩)
  | advance now =>
    simp only [wheelMachine, Option.ite_none_right_eq_some, Option.some.injEq] at h
    exact .inr (.inr (.inl ⟨now, rfl, by rw [← h.2]⟩))
  | turn =>
    refine .inr (.inr (.inr ⟨rfl, ?_⟩))
    simp only [wheelMachine] at h
    split at h
    · cases h
    · next it hit =>
      split at h
      · next timers it' hturn =>
        cases h
        exact ⟨it, it', hit, hturn⟩
      · cases h

/-- The books, and the rounds while what is added is in range, are kept by a turn. -/
theorem turn_kept {it : Int} {it' : Option Int} {timers : Timers κ} (hw : s.wheel.Books)
    (hr : s.wheel.RoundsOk) (hit : s.it = some it)
    (hc : ∀ c ∈ s.firing cbs, c.InRange s.wheel ∧ c.Fits s.wheel)
    (h : s.timers.turn cbs s.now it = .ok (timers, it')) :
    timers.wheel.Books ∧ timers.wheel.RoundsOk := by
  refine ⟨Timers.turn_books hw h, ?_⟩
  obtain ⟨done, t, rest, hb, rfl, -, hcase⟩ := Timers.turn_cases hw h
  rcases hcase with ⟨hpos, rfl⟩ | ⟨hdue, rfl⟩
  · intro u hu
    rcases TimerWheel.pending_counted hw hb hu with hu | ⟨-, rfl⟩
    · exact hr u hu
    · exact Int.le_sub_one_of_lt hpos
  · have hfiring : s.firing cbs = Timers.firing cbs s.now s.timers.ran.length t := by
      rw [Wheeling.firing, hit, Timers.due_eq hw hb, if_pos hdue]
    exact hr.calls hw (hfiring ▸ hc)

/-- **The books are always kept.** In every run of adds, cancels and ticks, and at every turn of
the loop in `tick`, whatever the callbacks do to the wheel: as long as the distance of what is
added stays in range and the product in `insert_timer` does not overflow, the ids are distinct and
below the next one, the hand is on a slot, the counter counts the timers in the buckets, their
rounds are not negative, and `cancel` takes out exactly the timer it is asked for. -/
theorem wellKept_always (hslots : 0 < slotCount) {ops : List (WheelOp κ)}
    (hr : (wheelMachine cbs fuel tickMs slotCount created).Each (AddsInRange cbs) ops)
    (hf : (wheelMachine cbs fuel tickMs slotCount created).Each (AddsFit cbs) ops) :
    (wheelMachine cbs fuel tickMs slotCount created).Always (fun s => WellKept s.wheel) ops := by
  have hinit : (TimerWheel.new tickMs slotCount created : TimerWheel κ).RoundsOk := by
    simp [TimerWheel.RoundsOk]
  refine Machine.AlwaysFrom.mono (P := fun s => s.wheel.Books ∧ s.wheel.RoundsOk)
    (fun s hs => hs.1.wellKept hs.2)
    (Machine.alwaysFrom_of_eachFrom ?_ ⟨.new hslots tickMs created, hinit⟩
      (Machine.EachFrom.and hr hf))
  intro s s' op ⟨hw, hok⟩ ⟨hrange, hfits⟩ h
  obtain ⟨c, rfl, hs'⟩ | ⟨now, rfl, hs'⟩ | ⟨now, rfl, hs'⟩ | ⟨rfl, it, it', hit, hturn⟩ :=
    wheelMachine_step h
  · rw [hs']
    refine ⟨hw.call c, TimerWheel.RoundsOk.calls hok hw fun d (hd : d ∈ [c]) => ?_⟩
    rw [List.mem_singleton.mp hd]
    exact ⟨hrange, hfits⟩
  · rw [hs']
    exact ⟨hw.ticked now, hok⟩
  · rw [Wheeling.wheel, hs']
    exact ⟨Timers.handed_books hw, hok⟩
  · exact turn_kept hw hok hit (fun c hc => ⟨hrange c hc, hfits c hc⟩) hturn

end Runs

def addsOnce : Callbacks Unit := fun n _ => if n = 0 then [.addTimer ⟨40000⟩ ()] else []

/-- A repeating timer fires, and is cancelled under its next id. -/
def fireThenCancel : List (WheelOp Unit) :=
  [.call (.addRepeating ⟨10000⟩ ⟨true, 20000⟩ ()), .advance ⟨10000⟩, .turn, .call (.cancel 3)]

theorem fireThenCancel_wellKept :
    (wheelMachine addsOnce 0 10 4 ⟨0⟩).Always (fun s => WellKept s.wheel) fireThenCancel := by
  refine wellKept_always (by decide) ⟨show TimerCall.InRange _ _ by decide, ?_⟩
    ⟨show TimerCall.Fits _ _ by decide, ?_⟩
  · rintro s ⟨⟩
    refine ⟨trivial, ?_⟩
    rintro s ⟨⟩
    refine ⟨show ∀ c ∈ _, TimerCall.InRange _ c by decide, ?_⟩
    rintro s ⟨⟩
    exact ⟨show TimerCall.InRange _ _ by decide, fun _ _ => trivial⟩
  · rintro s ⟨⟩
    refine ⟨trivial, ?_⟩
    rintro s ⟨⟩
    refine ⟨show ∀ c ∈ _, TimerCall.Fits _ c by decide, ?_⟩
    rintro s ⟨⟩
    exact ⟨show TimerCall.Fits _ _ by decide, fun _ _ => trivial⟩

/-- A wheel of 3000 slots of 1000 s each, and a timer due 3001 of them on. -/
def longDelay : List (WheelOp Unit) := [.call (.addTimer ⟨3001000000000⟩ ())]

/-- The distance is one turn and one slot, and the timer gets -2 rounds. -/
theorem overflown_not_wellKept :
    (wheelMachine addsOnce 0 1000000 3000 ⟨0⟩).Each (AddsInRange addsOnce) longDelay ∧
      ¬ (wheelMachine addsOnce 0 1000000 3000 ⟨0⟩).Always (fun s => WellKept s.wheel)
        longDelay := by
  have hinv : (TimerWheel.new 1000000 3000 ⟨0⟩ : TimerWheel Unit).Inv := .new (by decide) _ _
  have hadded : (TimerWheel.new 1000000 3000 ⟨0⟩).added ⟨3001000000000⟩ ⟨false, 0⟩ () ∈
      ((TimerWheel.new 1000000 3000 ⟨0⟩).addTimer ⟨3001000000000⟩ ()).pending :=
    (TimerWheel.mem_pending_addRepeating hinv).mpr (.inl rfl)
  refine ⟨⟨show TimerCall.InRange _ _ by decide, fun _ _ => trivial⟩, fun h => ?_⟩
  have hrounds := (h.2 _ rfl).rounds _ hadded
  revert hrounds
  decide

end Hound.Reactor
