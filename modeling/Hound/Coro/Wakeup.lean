import Hound.Coro.WaitInterest

/-!
# Whom an event wakes

`wait_for_read` and `wait_for_write` install callbacks for different events, but both call
`on_fd_ready(fd)`, which is not told the event and looks for a reader first. `wakes_iff`: the
coroutine that waits for the event is the one that is woken exactly if no other is found in
its place.
-/

namespace Hound.Coro

open Hound.Lib Hound.Reactor

inductive Event where
  | read
  | write
  deriving DecidableEq

def Event.other : Event → Event
  | .read => .write
  | .write => .read

namespace Scheduler

def waitingFor (s : Scheduler) : Event → Waiting
  | .read => s.waitingForRead
  | .write => s.waitingForWrite

/-- The callback that `wait_for_read` or `wait_for_write` has set for the event. -/
def callback (s : Scheduler) (fd : Int) : Event → Scheduler
  | .read => s.onFdReady fd
  | .write => s.onFdReady fd

end Scheduler

/-- From `s` to `s'`, the coroutine that waits for the event goes to the back of the queue, if
there is one, and all others stay where they are. -/
structure Wakes (ev : Event) (fd : Int) (s s' : Scheduler) : Prop where
  queued : s'.readyQueue = s.readyQueue ++ ((s.waitingFor ev).lookup fd).toList
  taken : (s'.waitingFor ev).lookup fd = none
  stay : ∀ fd', fd' ≠ fd → (s'.waitingFor ev).lookup fd' = (s.waitingFor ev).lookup fd'
  other : s'.waitingFor ev.other = s.waitingFor ev.other
  timers : s'.timers = s.timers

/-- No coroutine is found before the one that waits for the event: for a write, none
that reads; for a read, there is a reader, or no writer to be taken for one. -/
def Found (s : Scheduler) (fd : Int) : Event → Prop
  | .read => fd ∈ s.waitingForRead ∨ fd ∉ s.waitingForWrite
  | .write => fd ∉ s.waitingForRead

variable {s : Scheduler} {fd : Int} {co : Nat}

namespace Scheduler

theorem onFdReady_reader (h : s.waitingForRead.lookup fd = some co) :
    s.onFdReady fd = { s with waitingForRead := s.waitingForRead.erase fd }.schedule co := by
  rw [onFdReady, h]

theorem onFdReady_writer (hr : s.waitingForRead.lookup fd = none)
    (hw : s.waitingForWrite.lookup fd = some co) :
    s.onFdReady fd = { s with waitingForWrite := s.waitingForWrite.erase fd }.schedule co := by
  rw [onFdReady, hr, hw]

theorem onFdReady_nobody (hr : s.waitingForRead.lookup fd = none)
    (hw : s.waitingForWrite.lookup fd = none) : s.onFdReady fd = s := by
  rw [onFdReady, hr, hw]

end Scheduler

open Scheduler

theorem wakes_reader (h : s.waitingForRead.lookup fd = some co) :
    Wakes .read fd s (s.onFdReady fd) := by
  rw [onFdReady_reader h]
  refine ⟨?_, AList.lookup_erase _ _, fun fd' hne => AList.lookup_erase_ne hne, rfl, rfl⟩
  show _ = s.readyQueue ++ (s.waitingForRead.lookup fd).toList
  rw [h]
  rfl

theorem wakes_writer (hr : s.waitingForRead.lookup fd = none)
    (hw : s.waitingForWrite.lookup fd = some co) : Wakes .write fd s (s.onFdReady fd) := by
  rw [onFdReady_writer hr hw]
  refine ⟨?_, AList.lookup_erase _ _, fun fd' hne => AList.lookup_erase_ne hne, rfl, rfl⟩
  show _ = s.readyQueue ++ (s.waitingForWrite.lookup fd).toList
  rw [hw]
  rfl

theorem wakes_nobody {ev : Event} (hr : s.waitingForRead.lookup fd = none)
    (hw : s.waitingForWrite.lookup fd = none) : Wakes ev fd s (s.onFdReady fd) := by
  have hnone : (s.waitingFor ev).lookup fd = none := by
    cases ev with
    | read => exact hr
    | write => exact hw
  rw [onFdReady_nobody hr hw]
  exact ⟨by rw [hnone]; simp, hnone, fun _ _ => rfl, rfl, rfl⟩

/-- A waiter that is in the map before an event, and not after it, was woken. -/
theorem not_wakes_of_taken {ev : Event} {s' : Scheduler} {co : Nat}
    (h : (s.waitingFor ev.other).lookup fd = some co)
    (h' : (s'.waitingFor ev.other).lookup fd = none) : ¬ Wakes ev fd s s' := by
  intro hw
  rw [hw.other, h] at h'
  cases h'

/-- **An event wakes the coroutine that waits for it exactly if that is the one found.** -/
theorem wakes_iff (s : Scheduler) (fd : Int) (ev : Event) :
    Wakes ev fd s (s.callback fd ev) ↔ Found s fd ev := by
  have hcall : s.callback fd ev = s.onFdReady fd := by cases ev <;> rfl
  have hread : s.waitingForRead.lookup fd = none ↔ fd ∉ s.waitingForRead := AList.lookup_eq_none
  have hwrite : s.waitingForWrite.lookup fd = none ↔ fd ∉ s.waitingForWrite :=
    AList.lookup_eq_none
  rw [hcall]
  cases hr : s.waitingForRead.lookup fd with
  | some reader =>
    have hmem : fd ∈ s.waitingForRead := by
      rw [← not_not (a := fd ∈ s.waitingForRead), ← hread, hr]
      exact nofun
    cases ev with
    | read => exact iff_of_true (wakes_reader hr) (.inl hmem)
    | write =>
      have htaken : (s.onFdReady fd).waitingForRead.lookup fd = none :=
        AList.lookup_eq_none.mpr (notMem_onFdReady_read s)
      have hnot : ¬ Wakes .write fd s (s.onFdReady fd) := not_wakes_of_taken hr htaken
      exact iff_of_false hnot (not_not_intro hmem)
  | none =>
    have hnr := hread.mp hr
    cases hw : s.waitingForWrite.lookup fd with
    | none =>
      have hnw := hwrite.mp hw
      refine iff_of_true (wakes_nobody hr hw) ?_
      cases ev with
      | read => exact .inr hnw
      | write => exact hnr
    | some writer =>
      have hmem : fd ∈ s.waitingForWrite := by
        rw [← not_not (a := fd ∈ s.waitingForWrite), ← hwrite, hw]
        exact nofun
      cases ev with
      | write => exact iff_of_true (wakes_writer hr hw) hnr
      | read =>
        have htaken : (s.onFdReady fd).waitingForWrite.lookup fd = none :=
          AList.lookup_eq_none.mpr (notMem_onFdReady_write hnr)
        have hnot : ¬ Wakes .read fd s (s.onFdReady fd) := not_wakes_of_taken hw htaken
        exact iff_of_false hnot fun h => h.elim hnr (absurd hmem)

/-- Coroutine 0 waits to write to descriptor 5 and coroutine 1 to read from it; the poller
watches for writing. When 5 is writable, 1 is woken and 0 goes on waiting. -/
theorem writable_wakes_reader :
    ∃ s, waitMachine.run [.waitForWrite 0 5, .waitForRead 1 5] = some s ∧
      Watches s.poll Channel.isWriting 5 ∧ ¬ Watches s.poll Channel.isReading 5 ∧
      (s.sched.callback 5 .write).readyQueue = [1] ∧
      (s.sched.callback 5 .write).waitingForWrite.lookup 5 = some 0 ∧
      ¬ Wakes .write 5 s.sched (s.sched.callback 5 .write) := by
  refine ⟨_, rfl, ⟨_, rfl, rfl⟩, ?_, rfl, rfl, fun h => ?_⟩
  · rw [watches_of_some rfl]
    decide
  · exact absurd h.queued (by decide)

end Hound.Coro
