import Hound.Http.Isolation
import Hound.Reactor.ChannelTable
import Hound.Reactor.Dispatch

/-!
# `HttpServer` on its loop

The server of `HttpServer` with what was left out there: its channels, the poller they are
registered with, `start` and `stop`, and the order in which `EventLoop::loop` lets things happen.
An iteration polls, hands its event to every active channel, fires timers and runs the
tasks that were queued when it came to them. `active` holds the raw pointers that
`loop()` walks over, so a channel that is destroyed in between is used again: `broken`.

`start` and `stop` may be called outside of the loop and in it, by whatever it runs besides the
server: timers, tasks, and the callbacks of channels that are not followed here, between any two
that are. A handler of the server may call `stop` too (`stopIn`); to it `start` does nothing, for
the server is running. What else the loop runs leaves the server alone.
-/

namespace Hound.Http

open Lib Reactor

/-- Whose callbacks a channel has. -/
inductive Owner where
  | wakeup
  | listener
  | connection (fd : Fd)
  deriving DecidableEq

inductive Stage where
  /-- In front of `poll`, or outside of `loop()`. -/
  | idle
  /-- Handling events; the active channels that are left. -/
  | dispatch (active : List Nat)
  | timers
  /-- In `do_pending_tasks`; how many tasks of the batch are left. -/
  | tasks (left : Nat)

/-- The channels that the loop is still to call. -/
def Stage.active : Stage → List Nat
  | .dispatch active => active
  | _ => []

structure Serving (H : Type) where
  server : HttpServer H
  /-- The keys of `connections_`. -/
  fds : List Fd := []
  poll : PollState
  /-- The channel of the connection on an fd. -/
  channel : Fd → Nat := fun _ => 0
  owner : Nat → Owner := fun _ => .wakeup
  wakeupFd : Fd
  /-- `listen_sock_` and `listen_channel_`, while `running_`. -/
  listening : Option (Fd × Nat) := none
  /-- The erases that were queued before the last `stop`. They run before `server.tasks`. -/
  stale : List Fd := []
  stage : Stage := .idle
  /-- A destroyed channel was used. -/
  broken : Bool := false

/-- What the outside gives to the callbacks of one event. -/
structure Outside (H : Type) where
  /-- What `accept` returns. -/
  accepted : Option Fd
  env : ServerEnv H
  /-- What the read returns. -/
  read : ReadOutcome
  now : Timestamp

inductive LoopEvent (H : Type) where
  /-- `poll`, with what `select` does to the sets and returns. -/
  | poll (select : Int → PollState.FdSets → PollState.FdSets × Int)
  /-- `handle_event` of the next active channel. -/
  | handle (out : Outside H)
  /-- The same, in which a handler calls `stop()`. -/
  | stopIn (out : Outside H) (order : List Fd)
  | dispatched
  | timeout (timerId : Int)
  | ticked
  | task
  | iterated
  /-- `start()`, with the fd of the listening socket. -/
  | start (fd : Fd)
  /-- `stop()`, with the order in which `connections_` is walked. -/
  | stop (order : List Fd)
  | other (fd : Fd) (isOpen : Bool)

/-- `stop()` is called. -/
def LoopEvent.Stops {H : Type} : LoopEvent H → Prop
  | .stop _ | .stopIn _ _ => True
  | _ => False

namespace Serving

variable {H : Type}

/-- `disable_all` of the channel `c`. -/
def disable (s : Serving H) (c : Nat) : Serving H :=
  match s.poll.deref c with
  | none => { s with broken := true }
  | some ch => { s with poll := s.poll.disableAll c ch }

/-- `~Channel` of the channel `c`. -/
def destroy (s : Serving H) (c : Nat) : Serving H :=
  match s.poll.deref c with
  | none => { s with broken := true }
  | some ch => { s with poll := s.poll.destroy c ch }

/-- A new channel on `fd` with `enable_reading`; its address is `s.poll.heap.length`. -/
def watch (s : Serving H) (fd : Fd) (owner : Owner) : Serving H :=
  { s with
    poll := (s.poll.construct fd).enableReading s.poll.heap.length { fd }
    owner := Function.update s.owner s.poll.heap.length owner }

def onClose (s : Serving H) (fd : Fd) : Serving H :=
  if s.server.isLive fd then { s with server := s.server.onClose fd }.disable (s.channel fd) else s

/-- `HttpServer::on_message`; an `on_close` in it disables the channel. -/
def onMessage (s : Serving H) (fd : Fd) (out : Outside H) : Serving H :=
  let server := s.server.onMessage fd out.env out.read out.now
  if s.server.isLive fd && !server.isLive fd then { s with server }.disable (s.channel fd)
  else { s with server }

def onAccept [HeadMemory] (s : Serving H) (out : Outside H) : Serving H :=
  match out.accepted with
  | none => s
  | some fd =>
    { s with
      server := s.server.onAccept fd out.now
      fds := s.fds ++ [fd]
      channel := Function.update s.channel fd s.poll.heap.length }.watch fd (.connection fd)

/-- A callback of a channel of `owner`. The wakeup channel reads its eventfd. -/
def callback [HeadMemory] (out : Outside H) (owner : Owner) (s : Serving H) : Callback → Serving H
  | .read =>
    match owner with
    | .wakeup => s
    | .listener => s.onAccept out
    | .connection fd => s.onMessage fd out
  | .error | .close =>
    match owner with
    | .connection fd => s.onClose fd
    | .wakeup | .listener => s
  | .write => s

/-- The next turn of the loop over `active_channels`. -/
def handle [HeadMemory] (s : Serving H) (c : Nat) (out : Outside H) : Serving H :=
  match s.poll.deref c with
  | none => { s with broken := true }
  | some ch => (ch.handleEvent none).foldl (callback out (s.owner c)) s

/-- Whether `handle_event` of the channel `c` calls a handler of the server: `on_message` comes
first, on a connection that is open, and completes a request for which there is one. -/
def callsHandler (s : Serving H) (c : Nat) (out : Outside H) : Bool :=
  match s.owner c, s.poll.deref c with
  | .connection fd, some ch =>
    (ch.handleEvent none).head? = some .read &&
      (s.server.connections fd).any fun d =>
        ((d.toConnection.onMessage out.env out.read).1.log.drop d.log.length).any fun
          | .handle _ _ handler => handler.isSome
          | _ => false
  | _, _ => false

/-- `connections_.erase(fd)`. -/
def erase (s : Serving H) (fd : Fd) : Serving H :=
  match s.server.connections fd with
  | none => s
  | some _ => { s with server := s.server.erase fd, fds := s.fds.erase fd }.destroy (s.channel fd)

def onTimeout (s : Serving H) (t : Timeout) : Serving H :=
  match s.server.connections t.fd with
  | some c =>
    if c.object = t.object then s.onClose t.fd
    else { s with server := { s.server with dangling := true } }
  | none => { s with server := { s.server with dangling := true } }

/-- `HttpServer::start`, when `socket` returned `fd`. -/
def start (s : Serving H) (fd : Fd) : Serving H :=
  if s.listening.isSome then s
  else
    { s with
      server := { s.server with isOpen := Function.update s.server.isOpen fd true }
      listening := some (fd, s.poll.heap.length) }.watch fd .listener

/-- The body of the loop of `stop` over the connections. -/
def shut (s : Serving H) (fd : Fd) : Serving H :=
  match s.server.connections fd with
  | none => s
  | some c =>
    { s with
      server := { s.server with
        wheel := HttpServer.cancelTimer s.server.wheel c.timeoutTimer
        isOpen := Function.update s.server.isOpen fd false } }.disable (s.channel fd)

/-- The end of one connection in `connections_.clear()`. -/
def drop (s : Serving H) (fd : Fd) : Serving H :=
  { s with
    server := { s.server with
      connections := Function.update s.server.connections fd none } }.destroy (s.channel fd)

def stop (s : Serving H) (order : List Fd) : Serving H :=
  match s.listening with
  | none => s
  | some (fd, c) =>
    let s := order.foldl drop (order.foldl shut s)
    let s := (s.disable c).destroy c
    { s with
      server := { s.server with isOpen := Function.update s.server.isOpen fd false, tasks := [] }
      fds := []
      listening := none
      stale := s.stale ++ s.server.tasks }

def queue (s : Serving H) : List Fd := s.stale ++ s.server.tasks

def runTask (s : Serving H) : Option (Serving H) :=
  match s.stale with
  | fd :: stale => some ({ s with stale }.erase fd)
  | [] =>
    match s.server.tasks with
    | fd :: tasks => some ({ s with server := { s.server with tasks } }.erase fd)
    | [] => none

def next [HeadMemory] (s : Serving H) : LoopEvent H → Option (Serving H)
  | .poll select =>
    match s.stage with
    | .idle =>
      match s.poll.poll select with
      | none => some { s with broken := true }
      | some (poll, active) => some { s with poll, stage := .dispatch active }
    | _ => none
  | .handle out =>
    match s.stage with
    | .dispatch (c :: active) =>
      if ∀ fd ∈ out.accepted, s.server.isOpen fd = false then
        some ({ s with stage := .dispatch active }.handle c out)
      else none
    | _ => none
  | .stopIn out order =>
    match s.stage with
    | .dispatch (c :: active) =>
      if s.callsHandler c out ∧ s.listening.isSome ∧ order.Perm s.fds then
        -- `handle_request` goes on with the connection, and its channel with what is left to call
        some { { s with stage := .dispatch active }.stop order with broken := true }
      else none
    | _ => none
  | .dispatched =>
    match s.stage with
    | .dispatch [] => some { s with stage := .timers }
    | _ => none
  | .timeout timerId =>
    match s.stage with
    | .timers =>
      (s.server.wheel.pending.find? (·.id = timerId)).map fun t =>
        { s with
          server := { s.server with wheel := s.server.wheel.cancel timerId } }.onTimeout t.callback
    | _ => none
  | .ticked =>
    match s.stage with
    | .timers => some { s with stage := .tasks s.queue.length }
    | _ => none
  | .task =>
    match s.stage with
    | .tasks (left + 1) => { s with stage := .tasks left }.runTask
    | _ => none
  | .iterated =>
    match s.stage with
    | .tasks 0 => some { s with stage := .idle }
    | _ => none
  | .start fd => if s.server.isOpen fd then none else some (s.start fd)
  | .stop order => if order.Perm s.fds then some (s.stop order) else none
  | .other fd isOpen =>
    if s.server.connections fd = none ∧ fd ≠ s.wakeupFd ∧ s.listening.map Prod.fst ≠ some fd then
      some { s with server := { s.server with
        isOpen := Function.update s.server.isOpen fd isOpen } }
    else none

/-- The server from the state `start` on. -/
def machine [HeadMemory] (start : Serving H) : Machine (Serving H) (LoopEvent H) where
  init := start
  step s e := if s.broken then none else s.next e

end Serving

end Hound.Http
