import Hound.Coro.Scheduler
import Hound.Io.Socket

/-!
# The hooks

`co_read`, `co_write`, `co_accept`, `co_connect` and `co_sleep` of `coro/hook.cpp` in what calls
them: the function of a coroutine, given by what it does next (`Action`). Without a scheduler a
hook is the system call (`Hook.plain`); with one it tries, and waits for the fd as long
as the call would block (`Hook.attempt`). A `Frame` is where a coroutine stands, and `exec`
runs it until it switches back, on what the system calls give on the way.

An error is its `errno`; a success is the value returned and the bytes that the call has stored.
A hook that returns is the system call, if that returned what the hook took it for
(`attempt_eq`).
-/

namespace Hound.Coro

/-- What a system call returned, with the bytes it stored. -/
structure Outcome extends SysReturn where
  data : Bytes := []
  deriving DecidableEq

/-- What a hook returns: -1 with an `errno`, or a value. -/
abbrev Reply := Except Errno (Int × Bytes)

inductive Hook where
  | read (fd : Int)
  | write (fd : Int)
  | accept (fd : Int)
  | connect (fd : Int)
  deriving DecidableEq

def einprogress : Errno := .other 115

namespace Hook

/-- The hook on a thread without a scheduler. -/
def plain (o : Outcome) : Reply := if 0 ≤ o.ret then .ok (o.ret, o.data) else .error o.errno

/-- What the hook returns behind a system call, or `none` if it waits. -/
def attempt (o : Outcome) : Hook → Option Reply
  | .read _ =>
    if 0 < o.ret then some (.ok (o.ret, o.data))
    else if o.ret = 0 then some (.ok (0, o.data))
    else if o.errno = .eagain then none
    else some (.error o.errno)
  | .write _ =>
    if 0 < o.ret then some (.ok (o.ret, o.data))
    else if o.errno = .eagain then none
    else some (.error o.errno)
  | .accept _ =>
    if 0 ≤ o.ret then some (.ok (o.ret, o.data))
    else if o.errno = .eagain then none
    else some (.error o.errno)
  | .connect _ =>
    if o.ret = 0 then some (.ok (0, o.data))
    else if o.errno = .eagain ∨ o.errno = einprogress then none
    else some (.error o.errno)

/-- The switch of the hook. -/
def turn : Hook → Turn
  | .read fd => .coRead fd
  | .write fd => .coWrite fd
  | .accept fd => .coAccept fd
  | .connect fd => .coConnect fd

/-- What the hook takes a result for. To `co_write` a 0 is an error, as it is when no bytes were
to be written, and `errno` is then what it was before. -/
def taken (o : Outcome) : Hook → Outcome
  | .write _ => if 0 < o.ret then o else { o with ret := -1 }
  | .connect _ => if o.ret = 0 then o else { o with ret := -1 }
  | .read _ | .accept _ => o

theorem plain_ok {o : Outcome} (h : 0 ≤ o.ret) : plain o = .ok (o.ret, o.data) := if_pos h

theorem plain_error {o : Outcome} (h : o.ret < 0) : plain o = .error o.errno :=
  if_neg (Int.not_le.mpr h)

theorem attempt_eq {hook : Hook} {o : Outcome} {r : Reply} (h : hook.attempt o = some r) :
    r = plain (hook.taken o) := by
  cases hook with
  | read fd =>
    simp only [attempt] at h
    show r = plain o
    split_ifs at h with hpos hzero herr
    · rw [plain_ok (Int.le_of_lt hpos), ← Option.some.inj h]
    · rw [plain_ok hzero.ge, ← Option.some.inj h, hzero]
    · rw [plain_error (by omega), ← Option.some.inj h]
  | write fd =>
    simp only [attempt] at h
    show r = plain (if 0 < o.ret then o else { o with ret := -1 })
    split_ifs at h with hpos herr
    · rw [if_pos hpos, plain_ok (Int.le_of_lt hpos), ← Option.some.inj h]
    · rw [if_neg hpos, plain_error (show (-1 : Int) < 0 by decide), ← Option.some.inj h]
  | accept fd =>
    simp only [attempt] at h
    show r = plain o
    split_ifs at h with hpos herr
    · rw [plain_ok hpos, ← Option.some.inj h]
    · rw [plain_error (by omega), ← Option.some.inj h]
  | connect fd =>
    simp only [attempt] at h
    show r = plain (if o.ret = 0 then o else { o with ret := -1 })
    split_ifs at h with hzero herr
    · rw [if_pos hzero, plain_ok hzero.ge, ← Option.some.inj h, hzero]
    · rw [if_neg hzero, plain_error (show (-1 : Int) < 0 by decide), ← Option.some.inj h]

end Hook

/-- What `connect` would have returned on a thread that waits in it, by the `SO_ERROR` that it
left. -/
def Outcome.connected : Option Errno → Outcome
  | none => { ret := 0, errno := einprogress }
  | some errno => { ret := -1, errno }

/-! ## The function of a coroutine -/

/-- What it does next, where `σ` is the state it is in. -/
inductive Action (σ : Type) where
  | call (hook : Hook) (next : Reply → σ)
  | sleep (next : σ)
  | yield (next : σ)
  | create (new next : σ)
  | ret

inductive Frame (σ : Type) where
  | alive (x : σ)
  /-- In the hook that is called in `x`, behind its switch. -/
  | blocked (x : σ)
  /-- In `co_sleep`. -/
  | asleep (next : σ)
  | done

inductive Input where
  | sys (o : Outcome)
  /-- The `SO_ERROR` of `getsockopt`. -/
  | soError (error : Option Errno)
  /-- The step makes no system call. -/
  | go

inductive Effect (σ : Type) where
  | goes
  | creates (new : σ)
  | switches (turn : Turn)

variable {σ : Type} (code : σ → Action σ)

/-- The hook that is called in `x`, behind a system call. -/
def Frame.tried (x : σ) (hook : Hook) (next : Reply → σ) (o : Outcome) : Frame σ × Effect σ :=
  match hook.attempt o with
  | some r => (.alive (next r), .goes)
  | none => (.blocked x, .switches hook.turn)

def Frame.step : Frame σ → Input → Option (Frame σ × Effect σ)
  | .alive x, .sys o =>
    match code x with
    | .call hook next => some (tried x hook next o)
    | _ => none
  | .alive x, .go =>
    match code x with
    | .call .. => none
    | .sleep next => some (.asleep next, .switches .coSleep)
    | .yield next => some (.alive next, .switches .yield)
    | .create new next => some (.alive next, .creates new)
    | .ret => some (.done, .switches .finish)
  | .blocked x, .sys o =>
    match code x with
    | .call (.connect _) _ => none
    | .call hook next => some (tried x hook next o)
    | _ => none
  | .blocked x, .soError error =>
    match code x with
    | .call (.connect _) next => some (.alive (next (Hook.plain (.connected error))), .goes)
    | _ => none
  | .asleep next, .go => some (.alive next, .goes)
  | _, _ => none

/-- A coroutine from its resume on, until it switches back: where it is then, the coroutines it
has created, and what that was for the scheduler. -/
def exec : Frame σ → List Input → Option (Frame σ × List σ × Turn)
  | _, [] => none
  | f, i :: is =>
    match f.step code i with
    | none => none
    | some (f, .goes) => exec f is
    | some (f, .creates new) =>
      (exec f is).map fun (f, news, turn) => (f, new :: news, .create turn)
    | some (f, .switches turn) => if is.isEmpty then some (f, [], turn) else none

end Hound.Coro
