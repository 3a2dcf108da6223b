import Mathlib.Logic.Function.Basic
import Hound.Lib.Machine

/-!
# `EventLoopThreadPool`

`start` of `reactor/thread_pool.cpp` with the thread identity of an `EventLoop`. Thread 0
is the base thread, thread `i + 1` runs worker `i`; loop 0 is the base loop, loop `i + 1`
that of worker `i`. The constructor of a loop stores the id of the thread it runs on in
`thread_id_` and the loop in that thread's `t_loop_in_this_thread_`. `never_one_loop`:
`start` constructs all loops on the base thread, so no worker owns its loop.
-/

namespace Hound.Reactor

open Hound.Lib

abbrev ThreadId := Nat

abbrev LoopId := Nat

/-- Where a worker thread is. -/
inductive Worker where
  | unborn
  | started
  /-- After `thread_init`. -/
  | initialised
  | looping
  deriving DecidableEq

structure ThreadPool where
  /-- `thread_id_` of a constructed loop. -/
  threadId : LoopId → Option ThreadId
  /-- `t_loop_in_this_thread_`. -/
  current : ThreadId → Option LoopId
  /-- How many worker loops are constructed. -/
  constructed : Nat := 0
  /-- How many worker threads are created. -/
  spawned : Nat := 0
  started : Bool := false
  worker : Nat → Worker := fun _ => .unborn
  /-- `std::abort` ended the process. -/
  aborted : Bool := false

inductive PoolStep where
  /-- The base thread constructs the next loop. -/
  | construct
  /-- The base thread creates the next worker thread. -/
  | spawn
  /-- `start` returns. -/
  | finish
  /-- Worker `i` runs `thread_init`; whether that registers a channel with the loop. -/
  | threadInit (i : Nat) (registers : Bool)
  /-- Worker `i` calls `loop()`. -/
  | loop (i : Nat)

namespace ThreadPool

/-- Before `start`: only the base loop exists. -/
def initial : ThreadPool where
  threadId loop := if loop = 0 then some 0 else none
  current thread := if thread = 0 then some 0 else none

/-- `EventLoop::EventLoop` on `thread`. -/
def construct (s : ThreadPool) (loop : LoopId) (thread : ThreadId) : ThreadPool :=
  { s with
    threadId := Function.update s.threadId loop (some thread)
    current := Function.update s.current thread (some loop) }

/-- `assert_in_loop_thread` on `thread`. -/
def assertInLoopThread (s : ThreadPool) (loop : LoopId) (thread : ThreadId) : ThreadPool :=
  if s.threadId loop = some thread then s else { s with aborted := true }

/-- `start` with `n` worker threads constructs all loops, then creates the threads. -/
def Enabled (n : Nat) (s : ThreadPool) : PoolStep → Prop
  | .construct => s.constructed < n
  | .spawn => s.constructed = n ∧ s.spawned < n
  | .finish => s.constructed = n ∧ s.spawned = n ∧ s.started = false
  | .threadInit i _ => s.worker i = .started
  | .loop i => s.worker i = .initialised

instance (n : Nat) (s : ThreadPool) : ∀ a, Decidable (s.Enabled n a)
  | .construct => inferInstanceAs (Decidable (_ < _))
  | .spawn | .finish => inferInstanceAs (Decidable (_ ∧ _))
  | .threadInit .. | .loop _ => inferInstanceAs (Decidable (_ = _))

def setWorker (s : ThreadPool) (i : Nat) (worker : Worker) : ThreadPool :=
  { s with worker := Function.update s.worker i worker }

def next (s : ThreadPool) : PoolStep → ThreadPool
  | .construct => { s.construct (s.constructed + 1) 0 with constructed := s.constructed + 1 }
  | .spawn => { s.setWorker s.spawned .started with spawned := s.spawned + 1 }
  | .finish => { s with started := true }
  | .threadInit i registers =>
    if registers then (s.setWorker i .initialised).assertInLoopThread (i + 1) (i + 1)
    else s.setWorker i .initialised
  | .loop i => (s.setWorker i .looping).assertInLoopThread (i + 1) (i + 1)

/-- `start` with `n` worker threads under any schedule, up to an abort. -/
def machine (n : Nat) : Machine ThreadPool PoolStep where
  init := initial
  step s a := if s.aborted = false ∧ s.Enabled n a then some (s.next a) else none

theorem machine_step {n : Nat} {s s' : ThreadPool} {a : PoolStep}
    (h : (machine n).step s a = some s') : s.Enabled n a ∧ s' = s.next a := by
  obtain ⟨⟨-, he⟩, h⟩ := Option.ite_none_right_eq_some.mp h
  exact ⟨he, (Option.some.inj h).symm⟩

/-- Every worker runs the loop it owns and that is current on its thread, the base thread
still has the base loop, and no thread was caught on another's loop. -/
structure OneLoopPerThread (s : ThreadPool) : Prop where
  owner : ∀ i < s.spawned, s.threadId (i + 1) = some (i + 1)
  current : ∀ i < s.spawned, s.current (i + 1) = some (i + 1)
  base : s.current 0 = some 0
  alive : s.aborted = false

/-- All worker loops belong to the base thread, which has the last of them as its own. -/
structure Inv (s : ThreadPool) : Prop where
  owner : ∀ i, s.threadId (i + 1) ≠ some (i + 1)
  current : ∀ i, s.current (i + 1) = none
  base : s.current 0 = some s.constructed
  spawned : 0 < s.spawned → 0 < s.constructed

variable {n : Nat} {s s' : ThreadPool} {a : PoolStep}

theorem Inv.setWorker (hs : s.Inv) (i : Nat) (worker : Worker) : (s.setWorker i worker).Inv :=
  ⟨hs.owner, hs.current, hs.base, hs.spawned⟩

theorem Inv.assertInLoopThread (hs : s.Inv) (i : Nat) :
    (s.assertInLoopThread (i + 1) (i + 1)).Inv ∧
      (s.assertInLoopThread (i + 1) (i + 1)).aborted = true := by
  rw [ThreadPool.assertInLoopThread, if_neg (hs.owner i)]
  exact ⟨⟨hs.owner, hs.current, hs.base, hs.spawned⟩, rfl⟩

theorem inv_initial : initial.Inv :=
  ⟨by simp [initial], by simp [initial], rfl, fun h => absurd h (Nat.lt_irrefl 0)⟩

theorem machine_kept : (machine n).Kept Inv := by
  intro s s' a hs h
  obtain ⟨he, rfl⟩ := machine_step h
  cases a with
  | construct =>
    refine ⟨fun i => ?_, fun i => ?_, ?_, fun _ => Nat.succ_pos _⟩
    · simp only [next, ThreadPool.construct, Function.update_apply]
      split
      · simp
      · exact hs.owner i
    · simpa [next, ThreadPool.construct, Function.update_apply] using hs.current i
    · simp [next, ThreadPool.construct]
  | spawn =>
    obtain ⟨hc, hlt⟩ := he
    exact ⟨hs.owner, hs.current, hs.base, fun _ => Nat.lt_of_le_of_lt (Nat.zero_le _) (hc ▸ hlt)⟩
  | finish => exact ⟨hs.owner, hs.current, hs.base, hs.spawned⟩
  | threadInit i registers =>
    cases registers
    · exact hs.setWorker i .initialised
    · exact ((hs.setWorker i .initialised).assertInLoopThread i).1
  | loop i => exact ((hs.setWorker i .looping).assertInLoopThread i).1

/-- **No worker ever owns its loop.** Under every schedule in which `start` has created a
worker thread, none of the workers owns its loop or has it as current, the base thread has lost the
base loop, and a worker that calls `loop()` aborts the process. -/
theorem never_one_loop {steps : List PoolStep} (h : (machine n).run steps = some s)
    (hs : 0 < s.spawned) :
    ¬ s.OneLoopPerThread ∧
    (∀ i < s.spawned, s.threadId (i + 1) ≠ some (i + 1) ∧ s.current (i + 1) ≠ some (i + 1)) ∧
    s.current 0 ≠ some 0 ∧
    ∀ i s', (machine n).step s (.loop i) = some s' → s'.aborted = true := by
  have hi : s.Inv := Machine.invariant inv_initial machine_kept h
  refine ⟨fun h => hi.owner 0 (h.owner 0 hs),
    fun i _ => ⟨hi.owner i, by simp [hi.current i]⟩, ?_, ?_⟩
  · have := hi.spawned hs
    rw [hi.base]
    simp only [ne_eq, Option.some.injEq]
    omega
  · intro i s' h
    obtain ⟨-, rfl⟩ := machine_step h
    exact ((hi.setWorker i .looping).assertInLoopThread i).2

/-- One worker, which has run `thread_init` and is about to call `loop()`. -/
def oneWorker : ThreadPool :=
  ((machine 1).run [.construct, .spawn, .finish, .threadInit 0 false]).getD initial

theorem oneWorker_never :
    ¬ oneWorker.OneLoopPerThread ∧
    (∀ i < oneWorker.spawned,
      oneWorker.threadId (i + 1) ≠ some (i + 1) ∧ oneWorker.current (i + 1) ≠ some (i + 1)) ∧
    oneWorker.current 0 ≠ some 0 ∧
    ∀ i s', (machine 1).step oneWorker (.loop i) = some s' → s'.aborted = true := by
  have h : (machine 1).run [.construct, .spawn, .finish, .threadInit 0 false] = some oneWorker :=
    rfl
  exact never_one_loop h (by decide)

/-- The only worker of a pool of one aborts the process. -/
theorem oneWorker_aborts : ∃ s, (machine 1).run
    [.construct, .spawn, .finish, .threadInit 0 false, .loop 0] = some s ∧ s.aborted = true ∧
      ¬ s.OneLoopPerThread :=
  ⟨_, rfl, rfl, fun h => Bool.false_ne_true h.alive.symm⟩

end ThreadPool

end Hound.Reactor
