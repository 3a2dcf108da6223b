import Hound.Lib.Ledger
import Hound.Lib.Machine

/-!
# The coroutine scheduler

`coro/scheduler.h`, `.cpp`, with `Coroutine::resume` and `yield` and the waiting calls of
`coro/hook.cpp`. A coroutine is its position in the order of creation, and a
`shared_ptr` to it is that number. What a coroutine does from the moment it is resumed until
it switches back is a `Turn`; computation, and I/O that does not block, leave the
scheduler alone and are left out. So are the stacks, and the channels that `wait_for_read`
and `wait_for_write` register.
-/

namespace Hound.Coro

inductive State where
  | ready
  | running
  | suspended
  | done
  deriving DecidableEq

abbrev Waiting := AList fun _ : Int => Nat

structure Scheduler where
  /-- The state of every coroutine made. -/
  states : List State := []
  readyQueue : List Nat := []
  waitingForRead : Waiting := ∅
  waitingForWrite : Waiting := ∅
  /-- The coroutines whose `co_sleep` timer is pending. -/
  timers : List Nat := []

/-- What a coroutine does when it is resumed. -/
inductive Turn where
  /-- `create_coroutine`, and on. -/
  | create (next : Turn)
  | yield
  /-- `co_read` that would block, and likewise the next three. -/
  | coRead (fd : Int)
  | coAccept (fd : Int)
  | coWrite (fd : Int)
  | coConnect (fd : Int)
  | coSleep
  /-- Its function returns. -/
  | finish

namespace Scheduler

variable (s : Scheduler) (co : Nat)

def setState (st : State) : Scheduler := { s with states := s.states.modify co fun _ => st }

def schedule : Scheduler := { s with readyQueue := s.readyQueue ++ [co] }

def createCoroutine : Scheduler :=
  { s with states := s.states ++ [State.ready] }.schedule s.states.length

/-- `Scheduler::wait_for_read`, called by the coroutine `co`. -/
def waitForRead (fd : Int) : Scheduler :=
  { s with waitingForRead := s.waitingForRead.insert fd co }

def waitForWrite (fd : Int) : Scheduler :=
  { s with waitingForWrite := s.waitingForWrite.insert fd co }

def onFdReady (fd : Int) : Scheduler :=
  match s.waitingForRead.lookup fd with
  | some co => { s with waitingForRead := s.waitingForRead.erase fd }.schedule co
  | none =>
    match s.waitingForWrite.lookup fd with
    | some co => { s with waitingForWrite := s.waitingForWrite.erase fd }.schedule co
    | none => s

/-- `Coroutine::yield`, up to the switch. -/
def yield : Scheduler := s.setState co .suspended

/-- `co_read`, when the read would block. -/
def coRead (fd : Int) : Scheduler := (s.waitForRead co fd).yield co

/-- `co_accept`, when there is no connection. -/
def coAccept (fd : Int) : Scheduler := (s.waitForRead co fd).yield co

/-- `co_write`, when the write would block. -/
def coWrite (fd : Int) : Scheduler := (s.waitForWrite co fd).yield co

/-- `co_connect`, when the connection is in progress. -/
def coConnect (fd : Int) : Scheduler := (s.waitForWrite co fd).yield co

/-- `co_sleep`, up to its first switch. -/
def coSleep : Scheduler := { s with timers := s.timers ++ [co] }.yield co

/-- The callback of a `co_sleep` timer. -/
def wakeUp : Scheduler := { s with timers := s.timers.erase co }.schedule co

/-- The running coroutine `co`, up to the switch back. -/
def perform (s : Scheduler) (co : Nat) : Turn → Scheduler
  | .create next => s.createCoroutine.perform co next
  | .yield => s.yield co
  | .coRead fd => s.coRead co fd
  | .coAccept fd => s.coAccept co fd
  | .coWrite fd => s.coWrite co fd
  | .coConnect fd => s.coConnect co fd
  | .coSleep => s.coSleep co
  | .finish => s.setState co .done

/-- `Coroutine::resume`. In `co_sleep`, `*done` is false as long as the timer is pending, and
the loop yields again. -/
def resume (turn : Turn) : Scheduler :=
  let s := s.setState co .running
  if co ∈ s.timers then s.yield co else s.perform co turn

def isDone : Bool := s.states[co]? = some .done

/-- The loop of `tick`, when the coroutines it resumes take these turns: it ends with the
last of them. -/
def tickLoop : List Turn → Scheduler → Option Scheduler
  | [], s =>
    match s.readyQueue.dropWhile s.isDone with
    | [] => some { s with readyQueue := [] }
    | _ :: _ => none
  | turn :: turns, s =>
    match s.readyQueue.dropWhile s.isDone with
    | [] => none
    | co :: queue => tickLoop turns ({ s with readyQueue := queue }.resume co turn)

/-- `Scheduler::tick`, and what it returns. -/
def tick (turns : List Turn) : Option (Scheduler × Bool) :=
  if s.readyQueue = [] then if turns = [] then some (s, false) else none
  else
    (s.tickLoop turns).map fun s =>
      (s, !s.waitingForRead.entries.isEmpty || !s.waitingForWrite.entries.isEmpty ||
        !s.readyQueue.isEmpty)

end Scheduler

/-- What can happen to a scheduler. -/
inductive Call where
  | createCoroutine
  | tick (turns : List Turn)
  | onFdReady (fd : Int)
  /-- The timer of a `co_sleep` of this coroutine fires. -/
  | timer (co : Nat)

def machine : Lib.Machine Scheduler Call where
  init := {}
  step s
    | .createCoroutine => some s.createCoroutine
    | .tick turns => (s.tick turns).map Prod.fst
    | .onFdReady fd => some (s.onFdReady fd)
    | .timer co => if co ∈ s.timers then some (s.wakeUp co) else none

end Hound.Coro
