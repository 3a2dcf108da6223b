import Hound.Reactor.SelectPoller

/-!
# `Channel::handle_event`

Which callbacks of a channel one event calls, and in which order, when all four are set; one
that is not set is skipped by whoever interprets the list. Errors come first, and reading before
writing.
-/

namespace Hound.Reactor

inductive Callback where
  | error
  | close
  | read
  | write
  deriving DecidableEq

namespace Channel

/-- `Channel::handle_event`. `owner` says whether the object it is tied to is still there, if it
is tied to one. -/
def handleEvent (ch : Channel) (owner : Option Bool) : List Callback :=
  if owner = some false then []
  else
    (if ch.revents &&& kErrorEvent ≠ 0 ∧ ch.revents &&& kReadEvent = 0 then [.error] else []) ++
    (if ch.revents &&& kErrorEvent ≠ 0 then [.close] else []) ++
    (if ch.revents &&& kReadEvent ≠ 0 then [.read] else []) ++
    if ch.revents &&& kWriteEvent ≠ 0 then [.write] else []

end Channel

end Hound.Reactor
