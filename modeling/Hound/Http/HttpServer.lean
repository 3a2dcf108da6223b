import Hound.Http.Server
import Hound.Lib.Machine
import Hound.Reactor.TimerWheel

/-!
# `HttpServer`

`on_accept`, `on_message` and `on_close` of `http/http_server.cpp` over the three stores that
hold a connection: `connections_`, the timers of the loop and its queue of tasks, which here
all erase a connection. What `on_message` does to one connection is `Connection.onMessage`;
what the outside decides during one call comes with the event. `start()` has run and
`stop()` is not called. `accept` never returns an fd that is open. Timers and tasks that
do not come from connections, and channels, are left out.

Inside `on_message` the guard on `closed` lets one `on_close` through at most, and the loop
reads neither timers nor tasks, so what that `on_close` does to them is done at the end.
-/

namespace Hound.Http

open Lib Reactor

abbrev Fd := Int

/-- The callback of `refresh_timeout`: the `Connection` object it holds, and that object's fd. -/
structure Timeout where
  object : Nat
  fd : Fd
  deriving DecidableEq

/-- A `Connection` object. `object` tells it from every other one, also on the same fd. -/
structure Session (H : Type) extends Connection H where
  object : Nat
  timeoutTimer : Int := 0

structure HttpServer (H : Type) where
  connections : Fd → Option (Session H) := fun _ => none
  wheel : TimerWheel Timeout
  /-- The fds of the queued erases, oldest first. -/
  tasks : List Fd := []
  /-- The fds that are open in the kernel. -/
  isOpen : Fd → Bool
  /-- How many `Connection` objects were made. -/
  objects : Nat := 0
  /-- A callback has reached a destroyed `Connection`. -/
  dangling : Bool := false

inductive ServerEvent (H : Type) where
  /-- `on_accept` at time `now`: `accept` returned this fd, or none. -/
  | accept (fd : Option Fd) (now : Timestamp)
  /-- `on_message`, with the outside, what the read gave and the time. -/
  | message (fd : Fd) (env : ServerEnv H) (r : ReadOutcome) (now : Timestamp)
  /-- The close or error callback. -/
  | close (fd : Fd)
  /-- The loop fires a timer. -/
  | timeout (timerId : Int)
  /-- The loop runs the next task. -/
  | task
  /-- Someone else opens or closes an fd. -/
  | other (fd : Fd) (isOpen : Bool)

/-- Whether `on_message` gets as far as `refresh_timeout`. -/
def Connection.receives {H : Type} (c : Connection H) : ReadOutcome → Bool
  | .data (_ :: _) => c.readBuf.beginWrite.2.1 ≠ 0
  | _ => false

namespace HttpServer

variable {H : Type}

def put (s : HttpServer H) (fd : Fd) (c : Session H) : HttpServer H :=
  { s with connections := Function.update s.connections fd (some c) }

/-- `if (timer) cancel_timer(timer)`. -/
def cancelTimer (wheel : TimerWheel Timeout) (timer : Int) : TimerWheel Timeout :=
  if timer ≠ 0 then wheel.cancel timer else wheel

/-- `Connection::refresh_timeout`, for the connection `c` on `fd`: 30 seconds from `now`. -/
def refreshTimeout (s : HttpServer H) (fd : Fd) (c : Session H) (now : Timestamp) :
    HttpServer H × Session H :=
  let wheel := cancelTimer s.wheel c.timeoutTimer
  let c := { c with timeoutTimer := wheel.nextTimerId }
  ({ s with wheel := wheel.addTimer (now.addSeconds ⟨true, 30000000⟩) ⟨c.object, fd⟩ }.put fd c, c)

/-- What `on_close` does outside the connection `c`, which it has marked closed. -/
def release (s : HttpServer H) (fd : Fd) (c : Session H) : HttpServer H :=
  { s with wheel := cancelTimer s.wheel c.timeoutTimer, tasks := s.tasks ++ [fd] }.put fd c

def onClose (s : HttpServer H) (fd : Fd) : HttpServer H :=
  match s.connections fd with
  | none => s
  | some c =>
    if c.closed then s else s.release fd { c with toConnection := c.toConnection.onClose }

def onAccept [HeadMemory] (s : HttpServer H) (fd : Fd) (now : Timestamp) : HttpServer H :=
  let s := { s with isOpen := Function.update s.isOpen fd true, objects := s.objects + 1 }
  (s.refreshTimeout fd { object := s.objects } now).1

def onMessage (s : HttpServer H) (fd : Fd) (env : ServerEnv H) (r : ReadOutcome)
    (now : Timestamp) : HttpServer H :=
  match s.connections fd with
  | none => s
  | some c =>
    if c.closed then s
    else
      let (s, c) := if c.receives r then s.refreshTimeout fd c now else (s, c)
      let c := { c with toConnection := (c.toConnection.onMessage env r).1 }
      if c.closed then s.release fd c else s.put fd c

def onTimeout (s : HttpServer H) (t : Timeout) : HttpServer H :=
  match s.connections t.fd with
  | some c => if c.object = t.object then s.onClose t.fd else { s with dangling := true }
  | none => { s with dangling := true }

/-- `connections_.erase(fd)`, which destroys the connection and closes its socket. -/
def erase (s : HttpServer H) (fd : Fd) : HttpServer H :=
  match s.connections fd with
  | none => s
  | some _ =>
    { s with
      connections := Function.update s.connections fd none
      isOpen := Function.update s.isOpen fd false }

/-- A server from the state `start` on. A timer that fires leaves its bucket before its
callback runs. -/
def machine [HeadMemory] (start : HttpServer H) : Machine (HttpServer H) (ServerEvent H) where
  init := start
  step s
    | .accept none _ => some s
    | .accept (some fd) now => if s.isOpen fd then none else some (s.onAccept fd now)
    | .message fd env r now => some (s.onMessage fd env r now)
    | .close fd => some (s.onClose fd)
    | .timeout timerId =>
      match s.wheel.pending.find? (·.id = timerId) with
      | none => none
      | some t => some ({ s with wheel := s.wheel.cancel timerId }.onTimeout t.callback)
    | .task =>
      match s.tasks with
      | [] => none
      | fd :: tasks => some ({ s with tasks }.erase fd)
    | .other fd isOpen =>
      if s.connections fd = none then
        some { s with isOpen := Function.update s.isOpen fd isOpen }
      else none

end HttpServer

end Hound.Http
