import Mathlib.Algebra.Group.Nat.Defs
import Hound.Lib.Machine

/-!
# `EventLoop`

The loop of `reactor/event_loop.cpp` with its cross-thread task queue and `quit`, one step
for each access that other threads can see: a push under `mutex_`, a store to `quit_`, a
read or write of the wakeup fd (an eventfd), the swap of `do_pending_tasks`. The loop
thread walks through the phases of `loop()`; any number of other threads, numbered, call
`queue_in_loop`, and one calls `quit`. Callbacks, timers and tasks of the loop thread may
call `queue_in_loop` too (`post`). Tasks are values of `τ`.
-/

namespace Hound.Reactor

open Hound.Lib

inductive Phase where
  /-- `loop()` is not called yet. -/
  | idle
  /-- Before `quit_ = false`. -/
  | entered
  /-- At the test of `quit_`. -/
  | test
  /-- At or in `poll`. -/
  | poll
  /-- Handling the active channels; whether the wakeup channel is one still to be handled. -/
  | dispatch (wakeup : Bool)
  | timers
  /-- In `do_pending_tasks` before the swap. -/
  | tasks
  /-- In `do_pending_tasks` after the swap. -/
  | batch
  | exited
  deriving DecidableEq

inductive QuitCall where
  | before
  /-- `quit_` is set and the wakeup not yet written. -/
  | stored
  | done
  deriving DecidableEq

structure EventLoop (τ : Type) where
  phase : Phase := .idle
  looping : Bool := false
  quit : Bool := false
  callingPendingTasks : Bool := false
  pendingTasks : List τ := []
  /-- What is left of the batch that `do_pending_tasks` runs. -/
  batch : List τ := []
  /-- The counter of the eventfd, which is readable when it is above 0. -/
  wakeupCounter : Nat := 0
  /-- The threads that have pushed and not yet written their wakeup. -/
  owes : Nat → Bool := fun _ => false
  /-- Whether the loop thread itself has. -/
  selfOwes : Bool := false
  quitCall : QuitCall := .before
  /-- The tasks run so far. -/
  executed : List τ := []
  /-- How many iterations were begun after `quit` set `quit_`. -/
  late : Nat := 0

inductive LoopStep (τ : Type) where
  | enter
  | reset
  | test
  /-- `poll` returns; whether the wakeup channel is among the active ones. -/
  | poll (wakeup : Bool)
  | readWakeup
  | dispatched
  | ticked
  | swap
  | runTask
  | endTasks
  | post (task : τ)
  | wakeSelf
  | push (thread : Nat) (task : τ)
  | wake (thread : Nat)
  | quitStore
  | quitWake

namespace EventLoop

variable {τ : Type}

/-- A write of 1 to a non-blocking eventfd; at the largest counter it fails. -/
def writeWakeup (counter : Nat) : Nat := if counter < 2 ^ 64 - 2 then counter + 1 else counter

def pushBack (s : EventLoop τ) (task : τ) : EventLoop τ :=
  { s with pendingTasks := s.pendingTasks ++ [task] }

def Enabled (s : EventLoop τ) : LoopStep τ → Prop
  | .enter => s.phase = .idle
  | .reset => s.phase = .entered
  | .test => s.phase = .test
  | .poll wakeup => s.phase = .poll ∧ (wakeup = true → 0 < s.wakeupCounter)
  | .readWakeup => s.phase = .dispatch true
  | .dispatched => s.phase = .dispatch false
  | .ticked => s.phase = .timers
  | .swap => s.phase = .tasks
  | .runTask => s.phase = .batch ∧ s.selfOwes = false ∧ s.batch ≠ []
  | .endTasks => s.phase = .batch ∧ s.selfOwes = false ∧ s.batch = []
  | .post _ => s.selfOwes = false ∧
      (s.phase = .dispatch true ∨ s.phase = .dispatch false ∨ s.phase = .timers ∨ s.phase = .batch)
  | .wakeSelf => s.selfOwes = true
  | .push thread _ => s.owes thread = false
  | .wake thread => s.owes thread = true
  | .quitStore => s.quitCall = .before
  | .quitWake => s.quitCall = .stored

instance (s : EventLoop τ) : ∀ a, Decidable (s.Enabled a)
  | .enter | .reset | .test | .readWakeup | .dispatched | .ticked | .swap | .wakeSelf
  | .push .. | .wake _ | .quitStore | .quitWake => inferInstanceAs (Decidable (_ = _))
  | .poll _ | .runTask | .endTasks | .post _ => inferInstanceAs (Decidable (_ ∧ _))

def next (s : EventLoop τ) : LoopStep τ → EventLoop τ
  | .enter => { s with phase := .entered, looping := true }
  | .reset => { s with phase := .test, quit := false }
  | .test =>
    if s.quit then { s with phase := .exited, looping := false }
    else { s with phase := .poll, late := if s.quitCall = .before then s.late else s.late + 1 }
  | .poll wakeup => { s with phase := .dispatch wakeup }
  | .readWakeup => { s with phase := .dispatch false, wakeupCounter := 0 }
  | .dispatched => { s with phase := .timers }
  | .ticked => { s with phase := .tasks, callingPendingTasks := true }
  | .swap => { s with phase := .batch, batch := s.pendingTasks, pendingTasks := [] }
  | .runTask => { s with executed := s.executed ++ s.batch.take 1, batch := s.batch.tail }
  | .endTasks => { s with phase := .test, callingPendingTasks := false }
  | .post task => { s.pushBack task with selfOwes := s.callingPendingTasks }
  | .wakeSelf => { s with wakeupCounter := writeWakeup s.wakeupCounter, selfOwes := false }
  | .push thread task => { s.pushBack task with owes := Function.update s.owes thread true }
  | .wake thread =>
    { s with
      wakeupCounter := writeWakeup s.wakeupCounter
      owes := Function.update s.owes thread false }
  | .quitStore => { s with quit := true, quitCall := .stored }
  | .quitWake => { s with wakeupCounter := writeWakeup s.wakeupCounter, quitCall := .done }

def machine (start : EventLoop τ) : Machine (EventLoop τ) (LoopStep τ) where
  init := start
  step s a := if s.Enabled a then some (s.next a) else none

theorem machine_step {start s s' : EventLoop τ} {a : LoopStep τ}
    (h : (machine start).step s a = some s') : s.Enabled a ∧ s' = s.next a := by
  simp only [machine] at h
  split at h
  · next he => exact ⟨he, (Option.some.inj h).symm⟩
  · cases h

end EventLoop

end Hound.Reactor
