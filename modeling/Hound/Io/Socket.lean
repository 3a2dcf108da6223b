import Hound.Basic

/-!
# `Socket::read` and `Socket::write`

What `recv` and `send` return, and the `Result` that `io/socket.cpp` makes of it. A
`Result` (`util/result.h`) is a value or an error code with a text; `EAGAIN` and `EINTR`
come back as errors like any other, under a text of their own.
-/

namespace Hound

/-- `errno`, as far as the code tells its values apart. -/
inductive Errno where
  | eagain
  | eintr
  | other (code : Int)
  deriving DecidableEq

/-- "Try again later". -/
def Errno.Transient : Errno → Prop
  | .eagain | .eintr => True
  | .other _ => False

instance : ∀ e : Errno, Decidable e.Transient
  | .eagain | .eintr => .isTrue trivial
  | .other _ => .isFalse id

/-- What a system call returned, and `errno` behind it. -/
structure SysReturn where
  ret : Int
  errno : Errno
  deriving DecidableEq

/-- Nothing was transferred, and the reason may pass. -/
def SysReturn.WouldBlock (r : SysReturn) : Prop := r.ret ≤ 0 ∧ r.errno.Transient

instance (r : SysReturn) : Decidable r.WouldBlock := inferInstanceAs (Decidable (_ ∧ _))

/-- `Result::Error`. -/
structure IoError where
  code : Errno
  message : Bytes
  deriving DecidableEq

abbrev Result (α : Type) := Except IoError α

namespace Socket

def read (r : SysReturn) : Result Int :=
  if 0 < r.ret then .ok r.ret
  else if r.ret = 0 then .ok 0
  else if r.errno.Transient then .error ⟨r.errno, bytes "read: would block"⟩
  else .error ⟨r.errno, bytes "read() failed"⟩

def write (r : SysReturn) : Result Int :=
  if 0 < r.ret then .ok r.ret
  else if r.errno.Transient then .error ⟨r.errno, bytes "write: would block"⟩
  else .error ⟨r.errno, bytes "write() failed"⟩

theorem read_of_nonneg {r : SysReturn} (h : 0 ≤ r.ret) : read r = .ok r.ret := by
  unfold read
  split
  · rfl
  · next hpos =>
    have h0 : r.ret = 0 := by omega
    rw [if_pos h0, h0]

theorem read_of_neg {r : SysReturn} (h : r.ret < 0) : ∃ e, read r = .error e := by
  unfold read
  rw [if_neg (by omega), if_neg (by omega)]
  split <;> exact ⟨_, rfl⟩

theorem write_toOption_eq_none {r : SysReturn} : (write r).toOption = none ↔ r.ret ≤ 0 := by
  unfold write
  split
  · next h => exact iff_of_false nofun (Int.not_le.mpr h)
  · next h =>
    split
    · exact iff_of_true rfl (Int.not_lt.mp h)
    · exact iff_of_true rfl (Int.not_lt.mp h)

end Socket

/-- What `recv` did: it stored these bytes, none at the end of the stream, or it failed. -/
inductive Recv where
  | stored (bs : Bytes)
  | failed (errno : Errno)
  deriving DecidableEq

namespace Recv

def ret : Recv → SysReturn
  | .stored bs => ⟨bs.length, .other 0⟩
  | .failed errno => ⟨-1, errno⟩

def bytes : Recv → Bytes
  | .stored bs => bs
  | .failed _ => []

end Recv

end Hound
