import Mathlib.Algebra.Group.Nat.Defs
import Mathlib.Data.List.Basic

/-!
# `TimerWheel`

The wheel of `reactor/timer_wheel.h`, `.cpp` over the clock of `reactor/timestamp.h`. A
callback is a value of `κ`. What the callbacks do to the wheel is a `Callbacks κ`: the
calls made by the `n`-th callback that runs. A `double` enters as what the code reads
from it (`Seconds`). An iterator into a bucket is the id of the timer it points at, or
`none` for `end()`; using the iterator of a deleted timer is a fault.
-/

namespace Hound.Reactor

/-- `static_cast<int>`, and what g++ makes of an `int` that overflows. -/
def toInt (n : Int) : Int := n.bmod (2 ^ 32)

theorem toInt_eq {n : Nat} (h : n < 2 ^ 31) : toInt n = n :=
  Int.bmod_eq_of_le (by omega) (by omega)

/-- A `double` number of seconds: whether it is above zero, and the whole microseconds in it. -/
structure Seconds where
  positive : Bool
  us : Int
  deriving DecidableEq

/-- Microseconds of the steady clock. -/
structure Timestamp where
  us : Int
  deriving DecidableEq

namespace Timestamp

def addSeconds (t : Timestamp) (s : Seconds) : Timestamp := ⟨t.us + s.us⟩

def diffMs (t other : Timestamp) : Int := (t.us - other.us).tdiv 1000

@[simp] theorem diffMs_self (t : Timestamp) : t.diffMs t = 0 := by simp [diffMs]

end Timestamp

structure Timer (κ : Type) where
  id : Int
  expiration : Timestamp
  callback : κ
  interval : Seconds := ⟨false, 0⟩
  rounds : Int := 0
  deriving DecidableEq

/-- A timer whose `interval` is 0. -/
def Timer.OneShot {κ : Type} (t : Timer κ) : Prop := t.interval.positive = false

instance {κ : Type} (t : Timer κ) : Decidable t.OneShot := inferInstanceAs (Decidable (_ = _))

structure TimerWheel (κ : Type) where
  tickMs : Nat
  slotCount : Nat
  buckets : List (List (Timer κ))
  currentSlot : Nat := 0
  lastTick : Timestamp
  nextTimerId : Int := 1
  timerCount : Nat := 0

/-- What a callback, or anyone else, may ask of the wheel. -/
inductive TimerCall (κ : Type) where
  | addTimer (when : Timestamp) (callback : κ)
  | addRepeating (when : Timestamp) (interval : Seconds) (callback : κ)
  | cancel (timerId : Int)

/-- The calls that the `n`-th callback to run makes. -/
abbrev Callbacks (κ : Type) := Nat → κ → List (TimerCall κ)

namespace TimerWheel

variable {κ : Type}

def new (tickMs slotCount : Nat) (created : Timestamp) : TimerWheel κ :=
  { tickMs, slotCount, buckets := List.replicate slotCount [], lastTick := created }

def pending (w : TimerWheel κ) : List (Timer κ) := w.buckets.flatten

/-- Milliseconds from the last tick to the expiration, 0 for a timer already due. -/
def deltaMs (w : TimerWheel κ) (t : Timer κ) : Nat := (t.expiration.diffMs w.lastTick).toNat

/-- `tick_ms_ * slot_count_`, a product of two `int`s. -/
def turnMs (w : TimerWheel κ) : Int := toInt (w.tickMs * w.slotCount : Nat)

/-- The turns of the hand in `delta` milliseconds, as `insert_timer` counts them. A `turnMs` of 0
is a division by zero, which ends the program. -/
def roundsFor (w : TimerWheel κ) (delta : Nat) : Int := toInt ((delta : Int).tdiv w.turnMs)

theorem roundsFor_eq {w : TimerWheel κ} (h : w.tickMs * w.slotCount < 2 ^ 31) (delta : Nat) :
    w.roundsFor delta = toInt (delta / (w.tickMs * w.slotCount) : Nat) := by
  rw [roundsFor, turnMs, toInt_eq h]
  rfl

def insertTimer (w : TimerWheel κ) (t : Timer κ) : TimerWheel κ :=
  let delta := w.deltaMs t
  let timer := { t with rounds := w.roundsFor delta }
  let slot := (w.currentSlot + delta / w.tickMs) % w.slotCount
  { w with
    buckets := w.buckets.modify slot (· ++ [timer])
    timerCount := w.timerCount + 1 }

/-- `next_timer_id_.fetch_add(1)`, then `insert_timer`. -/
def addRepeating (w : TimerWheel κ) (when : Timestamp) (interval : Seconds) (callback : κ) :
    TimerWheel κ :=
  { w with nextTimerId := w.nextTimerId + 1 }.insertTimer
    { id := w.nextTimerId, expiration := when, callback, interval }

/-- `add_timer`: the interval is `0.0`. -/
def addTimer (w : TimerWheel κ) (when : Timestamp) (callback : κ) : TimerWheel κ :=
  w.addRepeating when ⟨false, 0⟩ callback

/-- The scan of `cancel` over the buckets: the first timer with this id goes. -/
def scan (timerId : Int) : List (List (Timer κ)) → Option (List (List (Timer κ)))
  | [] => none
  | bucket :: buckets =>
    if bucket.any (·.id = timerId) then some (bucket.eraseP (·.id = timerId) :: buckets)
    else (scan timerId buckets).map (bucket :: ·)

def cancel (w : TimerWheel κ) (timerId : Int) : TimerWheel κ :=
  match scan timerId w.buckets with
  | some buckets => { w with buckets, timerCount := w.timerCount - 1 }
  | none => w

def call (w : TimerWheel κ) : TimerCall κ → TimerWheel κ
  | .addTimer when callback => w.addTimer when callback
  | .addRepeating when interval callback => w.addRepeating when interval callback
  | .cancel timerId => w.cancel timerId

def bucket (w : TimerWheel κ) : List (Timer κ) := w.buckets.getD w.currentSlot []

def setBucket (w : TimerWheel κ) (bucket : List (Timer κ)) : TimerWheel κ :=
  { w with buckets := w.buckets.set w.currentSlot bucket }

end TimerWheel

/-- The iterator after the one at `it`. -/
def nextIter {κ : Type} (it : Int) (bucket : List (Timer κ)) : Option Int :=
  ((bucket.dropWhile (·.id ≠ it)).tail.head?).map (·.id)

/-- A callback that ran: its timer, and the tick it ran at. -/
structure Fired (κ : Type) where
  timer : Timer κ
  now : Timestamp
  deriving DecidableEq

structure Timers (κ : Type) where
  wheel : TimerWheel κ
  ran : List (Fired κ) := []

inductive TickFault where
  /-- A deleted timer is looked at. -/
  | dangling
  /-- The fuel did not cover the loop. -/
  | fuel
  deriving DecidableEq

namespace Timers

variable {κ : Type} (cbs : Callbacks κ) (now : Timestamp)

/-- Fire `timer`, which is out of its bucket: run the callback, then re-add if repeating. -/
def fire (s : Timers κ) (timer : Timer κ) : Timers κ :=
  let wheel := (cbs s.ran.length timer.callback).foldl TimerWheel.call s.wheel
  { wheel :=
      if timer.interval.positive then
        wheel.addRepeating (now.addSeconds timer.interval) timer.interval timer.callback
      else wheel
    ran := s.ran ++ [⟨timer, now⟩] }

/-- The loop of `tick` over the bucket under the hand, from the iterator `it` on. -/
def sweep : Nat → Timers κ → Option Int → Except TickFault (Timers κ)
  | _, s, none => .ok s
  | 0, _, some _ => .error .fuel
  | fuel + 1, s, some it =>
    match s.wheel.bucket.find? (·.id = it) with
    | none => .error .dangling
    | some timer =>
      let next := nextIter it s.wheel.bucket
      if timer.rounds > 0 then
        let bucket := s.wheel.bucket.map fun t =>
          if t.id = it then { t with rounds := t.rounds - 1 } else t
        sweep fuel { s with wheel := s.wheel.setBucket bucket } next
      else
        let wheel := s.wheel.setBucket (s.wheel.bucket.eraseP (·.id = it))
        let s := { s with wheel := { wheel with timerCount := wheel.timerCount - 1 } }
        sweep fuel (s.fire cbs now timer) next

/-- One turn of the loop of `tick` over the slots: move the hand and sweep its bucket. -/
def advance (fuel : Nat) (s : Timers κ) : Except TickFault (Timers κ) :=
  let wheel := { s.wheel with currentSlot := (s.wheel.currentSlot + 1) % s.wheel.slotCount }
  sweep cbs now fuel { s with wheel } (wheel.bucket.head?.map (·.id))

def advanceSlots (fuel : Nat) : Nat → Timers κ → Except TickFault (Timers κ)
  | 0, s => .ok s
  | slots + 1, s => (s.advance cbs now fuel).bind (advanceSlots fuel slots)

/-- `TimerWheel::tick`. `last_tick_` is set before the elapsed time is taken from it. -/
def tick (fuel : Nat) (s : Timers κ) : Except TickFault (Timers κ) :=
  let s := { s with wheel := { s.wheel with lastTick := now } }
  let elapsedMs := now.diffMs s.wheel.lastTick
  if elapsedMs ≤ 0 then .ok s
  else
    let slots := toInt (elapsedMs.tdiv s.wheel.tickMs)
    let slots := if slots > s.wheel.slotCount then s.wheel.slotCount else slots.toNat
    s.advanceSlots cbs now fuel slots

end Timers

end Hound.Reactor
