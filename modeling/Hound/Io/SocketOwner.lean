import Hound.Lib.Ledger
import Hound.Lib.Machine
import Mathlib.Data.List.Pairwise

/-!
# Who closes a file descriptor

A `Socket` (`io/socket.h`) is an `fd_` that its destructor closes. `Process` has the `Socket`
objects that live, each under a name of its own, and what the kernel opened for them, newest
first, with the number of times that `::close` was called on it. The kernel gives out a
number again once it is closed, so a second `::close` would hit whoever has it by then.

The fds that are open and those that the sockets hold make a ledger: a move passes an fd on,
and only `close` ends one.
-/

namespace Hound

open Lib Lib.Ledger

abbrev NativeFd := Int

def kInvalidFd : NativeFd := -1

/-- `is_valid()` of a socket with this fd. -/
def isValid (fd : NativeFd) : Bool := fd ≠ kInvalidFd

theorem isValid_iff {fd : NativeFd} : isValid fd ↔ fd ≠ kInvalidFd := decide_eq_true_iff

/-- One descriptor that the kernel opened, and the number of calls of `::close` on it. -/
structure OpenedFile where
  fd : NativeFd
  closes : Nat
  deriving DecidableEq

/-- `::close(fd)`: a number stands for the file that was opened last under it. -/
def sysClose (fd : NativeFd) : List OpenedFile → List OpenedFile
  | [] => []
  | f :: fs => if f.fd = fd then { f with closes := f.closes + 1 } :: fs else f :: sysClose fd fs

/-- The last file opened under `fd` is not closed yet. -/
def IsOpen (fd : NativeFd) (fs : List OpenedFile) : Prop := fs.find? (·.fd = fd) = some ⟨fd, 0⟩

instance (fd : NativeFd) (fs : List OpenedFile) : Decidable (IsOpen fd fs) :=
  inferInstanceAs (Decidable (_ = _))

structure Process where
  sockets : AList fun _ : Nat => NativeFd := ∅
  files : List OpenedFile := []

namespace Process

def fd (p : Process) (o : Nat) : NativeFd := (p.sockets.lookup o).getD kInvalidFd

def setFd (p : Process) (o : Nat) (fd : NativeFd) : Process :=
  { p with sockets := p.sockets.insert o fd }

/-- `Socket()` -/
def default (p : Process) (o : Nat) : Process := p.setFd o kInvalidFd

/-- `Socket(fd)`, with an `fd` that the kernel has just opened. -/
def construct (p : Process) (o : Nat) (fd : NativeFd) : Process :=
  { p.setFd o fd with files := ⟨fd, 0⟩ :: p.files }

/-- `Socket(Socket&& other)` -/
def moveConstruct (p : Process) (o other : Nat) : Process :=
  (p.setFd o (p.fd other)).setFd other kInvalidFd

def close (p : Process) (o : Nat) : Process :=
  if p.fd o = kInvalidFd then p
  else { p.setFd o kInvalidFd with files := sysClose (p.fd o) p.files }

/-- `operator=(Socket&& other)` -/
def moveAssign (p : Process) (o other : Nat) : Process :=
  if o ≠ other then
    let p := p.close o
    (p.setFd o (p.fd other)).setFd other kInvalidFd
  else p

def destroy (p : Process) (o : Nat) : Process :=
  let p := p.close o
  { p with sockets := p.sockets.erase o }

end Process

inductive SocketCall where
  | default (o : Nat)
  | construct (o : Nat) (fd : NativeFd)
  | moveConstruct (o other : Nat)
  | moveAssign (o other : Nat)
  | close (o : Nat)
  | destroy (o : Nat)

/-- A new object is one that does not live yet, the others are objects that do. The kernel
returns an fd that is not open. -/
def SocketCall.Legal (p : Process) : SocketCall → Prop
  | .default o => o ∉ p.sockets
  | .construct o fd => o ∉ p.sockets ∧ fd ≠ kInvalidFd ∧ ¬ IsOpen fd p.files
  | .moveConstruct o other => o ∉ p.sockets ∧ other ∈ p.sockets
  | .moveAssign o other => o ∈ p.sockets ∧ other ∈ p.sockets
  | .close o | .destroy o => o ∈ p.sockets

instance (p : Process) : ∀ call : SocketCall, Decidable (call.Legal p)
  | .default _ => inferInstanceAs (Decidable (¬ _))
  | .construct _ _ => inferInstanceAs (Decidable (_ ∧ _))
  | .moveConstruct _ _ => inferInstanceAs (Decidable (_ ∧ _))
  | .moveAssign _ _ => inferInstanceAs (Decidable (_ ∧ _))
  | .close _ => inferInstanceAs (Decidable (_ ∈ _))
  | .destroy _ => inferInstanceAs (Decidable (_ ∈ _))

def Process.next (p : Process) : SocketCall → Process
  | .default o => p.default o
  | .construct o fd => p.construct o fd
  | .moveConstruct o other => p.moveConstruct o other
  | .moveAssign o other => p.moveAssign o other
  | .close o => p.close o
  | .destroy o => p.destroy o

def ownerMachine : Machine Process SocketCall where
  init := {}
  step p call := if call.Legal p then some (p.next call) else none

/-! ## The kernel's files -/

section Files

variable {fd fd' : NativeFd} {f : OpenedFile} {fs : List OpenedFile}

/-- A file is closed at most once, and before its number is given out again. -/
def ClosedOnce (fs : List OpenedFile) : Prop :=
  (∀ f ∈ fs, f.closes ≤ 1) ∧ fs.Pairwise fun f g => g.fd = f.fd → g.closes = 1

theorem closedOnce_cons :
    ClosedOnce (f :: fs) ↔
      f.closes ≤ 1 ∧ (∀ g ∈ fs, g.fd = f.fd → g.closes = 1) ∧ ClosedOnce fs := by
  rw [ClosedOnce, ClosedOnce, List.forall_mem_cons, List.pairwise_cons]
  tauto

theorem isOpen_cons : IsOpen fd (f :: fs) ↔ if f.fd = fd then f.closes = 0 else IsOpen fd fs := by
  obtain ⟨n, c⟩ := f
  rw [IsOpen, List.find?_cons]
  by_cases h : n = fd <;> simp [h, IsOpen]

theorem ClosedOnce.isOpen (h : ClosedOnce fs) (hf : f ∈ fs) (h0 : f.closes = 0) :
    IsOpen f.fd fs := by
  induction fs with
  | nil => cases hf
  | cons g fs ih =>
    obtain ⟨-, hg, hfs⟩ := closedOnce_cons.mp h
    rw [isOpen_cons]
    rcases List.mem_cons.mp hf with rfl | hf
    · rw [if_pos rfl]
      exact h0
    · have hne : g.fd ≠ f.fd := by
        intro he
        have h1 : f.closes = 1 := hg f hf he.symm
        omega
      rw [if_neg hne]
      exact ih hfs hf

theorem ClosedOnce.closes_eq_one (h : ClosedOnce fs) (hfd : ¬ IsOpen f.fd fs) (hf : f ∈ fs) :
    f.closes = 1 := by
  have h1 : f.closes ≤ 1 := h.1 f hf
  have h0 : f.closes ≠ 0 := fun h0 => hfd (h.isOpen hf h0)
  omega

theorem ClosedOnce.opened (h : ClosedOnce fs) (hfd : ¬ IsOpen fd fs) :
    ClosedOnce (⟨fd, 0⟩ :: fs) := by
  refine closedOnce_cons.mpr ⟨Nat.zero_le 1, fun g hg he => ?_, h⟩
  apply h.closes_eq_one _ hg
  rw [show g.fd = fd from he]
  exact hfd

theorem mem_of_mem_sysClose (hf : f ∈ sysClose fd fs) (hne : f.fd ≠ fd) : f ∈ fs := by
  induction fs with
  | nil => exact hf
  | cons g fs ih =>
    rw [sysClose] at hf
    split at hf
    · next hg =>
      rcases List.mem_cons.mp hf with rfl | hf
      · exact absurd hg hne
      · exact List.mem_cons_of_mem _ hf
    · rcases List.mem_cons.mp hf with rfl | hf
      · exact List.mem_cons_self
      · exact List.mem_cons_of_mem _ (ih hf)

theorem ClosedOnce.sysClose (h : ClosedOnce fs) (hfd : IsOpen fd fs) :
    ClosedOnce (sysClose fd fs) := by
  induction fs with
  | nil => exact h
  | cons f fs ih =>
    obtain ⟨h1, hf, hfs⟩ := closedOnce_cons.mp h
    rw [isOpen_cons] at hfd
    rw [Hound.sysClose]
    split at hfd
    · next he =>
      rw [if_pos he]
      refine closedOnce_cons.mpr ⟨?_, hf, hfs⟩
      show f.closes + 1 ≤ 1
      omega
    · next hne =>
      rw [if_neg hne]
      refine closedOnce_cons.mpr ⟨h1, fun g hg he => ?_, ih hfs hfd⟩
      exact hf g (mem_of_mem_sysClose hg (he.symm ▸ hne)) he

theorem isOpen_sysClose (hfd : IsOpen fd fs) :
    IsOpen fd' (sysClose fd fs) ↔ IsOpen fd' fs ∧ fd' ≠ fd := by
  induction fs with
  | nil => cases hfd
  | cons f fs ih =>
    rw [isOpen_cons] at hfd
    rw [sysClose]
    split at hfd
    · next he =>
      rw [if_pos he, isOpen_cons, isOpen_cons]
      by_cases h : fd' = fd
      · simp [h, he]
      · simp [he, Ne.symm h, h]
    · next hne =>
      rw [if_neg hne, isOpen_cons, isOpen_cons]
      by_cases h : f.fd = fd'
      · have hne' : fd' ≠ fd := h ▸ hne
        simp [h, hne']
      · rw [if_neg h, if_neg h]
        exact ih hfd

end Files

/-! ## The ledger of a process -/

namespace Process

variable {p p' : Process} {o other : Nat} {fd : NativeFd}

def valid (p : Process) : List NativeFd := (held p.sockets).filter isValid

def ledger (p : Process) : Ledger NativeFd := ⟨{fd | IsOpen fd p.files}, p.valid⟩

theorem filter_isValid_invalid (l : List NativeFd) :
    (kInvalidFd :: l).filter isValid = l.filter isValid := List.filter_cons_of_neg (by decide)

theorem filter_isValid_cons (hfd : fd ≠ kInvalidFd) (l : List NativeFd) :
    (fd :: l).filter isValid = fd :: l.filter isValid :=
  List.filter_cons_of_pos (isValid_iff.mpr hfd)

theorem mem_valid : fd ∈ p.valid ↔ (∃ o, p.sockets.lookup o = some fd) ∧ fd ≠ kInvalidFd := by
  rw [valid, List.mem_filter, mem_held, isValid_iff]

theorem lookup_of_mem (h : o ∈ p.sockets) : p.sockets.lookup o = some (p.fd o) := by
  obtain ⟨fd, hfd⟩ := Option.isSome_iff_exists.mp (AList.lookup_isSome.mpr h)
  rw [Process.fd, hfd]
  rfl

@[simp] theorem sockets_setFd : (p.setFd o fd).sockets = p.sockets.insert o fd := rfl

theorem moves_take (hne : o ≠ other) (ho : p.sockets.lookup o = some kInvalidFd)
    (hother : p.sockets.lookup other = some fd) :
    Moves True p.ledger ((p.setFd o fd).setFd other kInvalidFd).ledger := by
  have htake : (fd :: held p.sockets).Perm (kInvalidFd :: held (p.setFd o fd).sockets) :=
    held_insert_perm ho fd
  have hleave : (kInvalidFd :: held (p.setFd o fd).sockets).Perm
      (fd :: held ((p.setFd o fd).setFd other kInvalidFd).sockets) := by
    refine held_insert_perm ?_ kInvalidFd
    rw [sockets_setFd, AList.lookup_insert_ne hne.symm, hother]
  have hperm := (htake.trans hleave).cons_inv
  exact .pass rfl (hperm.filter isValid).symm

theorem moves_default (ho : o ∉ p.sockets) : Moves True p.ledger (p.default o).ledger := by
  refine .pass rfl ?_
  show ((held (p.sockets.insert o kInvalidFd)).filter isValid).Perm _
  rw [held_insert_of_none (AList.lookup_eq_none.mpr ho), filter_isValid_invalid]
  exact .refl _

theorem moves_construct (ho : o ∉ p.sockets) (hfd : fd ≠ kInvalidFd)
    (hnew : ¬ IsOpen fd p.files) : Moves True p.ledger (p.construct o fd).ledger := by
  refine .create (a := fd) ?_ hnew ?_
  · ext fd'
    show IsOpen fd' (⟨fd, 0⟩ :: p.files) ↔ fd' = fd ∨ IsOpen fd' p.files
    rw [isOpen_cons]
    by_cases h : fd = fd'
    · simp [h]
    · simp [h, Ne.symm h]
  · show ((held (p.sockets.insert o fd)).filter isValid).Perm _
    rw [held_insert_of_none (AList.lookup_eq_none.mpr ho), filter_isValid_cons hfd]
    exact .refl _

theorem moves_moveConstruct (ho : o ∉ p.sockets) (hother : other ∈ p.sockets) :
    Moves True p.ledger (p.moveConstruct o other).ledger := by
  have hne : o ≠ other := fun h => ho (h ▸ hother)
  have htake : Moves True (p.default o).ledger
      (((p.default o).setFd o (p.fd other)).setFd other kInvalidFd).ledger :=
    moves_take hne (AList.lookup_insert _)
      ((AList.lookup_insert_ne hne.symm).trans (lookup_of_mem hother))
  have heq : ((p.default o).setFd o (p.fd other)).setFd other kInvalidFd =
      p.moveConstruct o other := by
    simp only [default, moveConstruct, setFd, AList.insert_insert]
  rw [heq] at htake
  exact (moves_default ho).andThen htake

theorem moves_close (ho : o ∈ p.sockets) : Moves True p.ledger (p.close o).ledger := by
  have hlookup := lookup_of_mem ho
  unfold close
  split
  · exact .pass rfl (.refl _)
  · next hfd =>
    refine .of_sound fun hs => .finish (a := p.fd o) ?_ ?_
    · have hopen : IsOpen (p.fd o) p.files := hs.alive _ (mem_valid.mpr ⟨⟨o, hlookup⟩, hfd⟩)
      ext fd'
      exact isOpen_sysClose hopen
    · have hperm := (held_insert_perm hlookup kInvalidFd).filter isValid
      rwa [filter_isValid_invalid, filter_isValid_cons hfd] at hperm

theorem lookup_close_self (ho : o ∈ p.sockets) :
    (p.close o).sockets.lookup o = some kInvalidFd := by
  unfold close
  split
  · next h => rw [lookup_of_mem ho, h]
  · exact AList.lookup_insert _

theorem lookup_close_ne (hne : other ≠ o) :
    (p.close o).sockets.lookup other = p.sockets.lookup other := by
  unfold close
  split
  · rfl
  · exact AList.lookup_insert_ne hne

theorem moves_moveAssign (ho : o ∈ p.sockets) (hother : other ∈ p.sockets) :
    Moves True p.ledger (p.moveAssign o other).ledger := by
  unfold moveAssign
  split
  · next hne =>
    have hfd : (p.close o).sockets.lookup other = some ((p.close o).fd other) := by
      rw [Process.fd, lookup_close_ne (Ne.symm hne), lookup_of_mem hother]
      rfl
    exact (moves_close ho).andThen (moves_take hne (lookup_close_self ho) hfd)
  · exact .pass rfl (.refl _)

theorem moves_destroy (ho : o ∈ p.sockets) : Moves True p.ledger (p.destroy o).ledger := by
  have hgone : Moves True (p.close o).ledger (p.destroy o).ledger := by
    refine .pass rfl ?_
    have hperm := (held_perm_of_some (lookup_close_self ho)).filter isValid
    rw [filter_isValid_invalid] at hperm
    exact hperm.symm
  exact (moves_close ho).andThen hgone

theorem moves_next {call : SocketCall} (h : call.Legal p) :
    Moves True p.ledger (p.next call).ledger := by
  cases call with
  | default o => exact moves_default h
  | construct o fd => exact moves_construct h.1 h.2.1 h.2.2
  | moveConstruct o other => exact moves_moveConstruct h.1 h.2
  | moveAssign o other => exact moves_moveAssign h.1 h.2
  | close o => exact moves_close h
  | destroy o => exact moves_destroy h

/-! ## What every call keeps -/

/-- Every open fd is held, by one socket, and no file was closed twice. -/
structure Inv (p : Process) : Prop where
  sound : p.ledger.Sound
  noneLost : p.ledger.NoneLost
  once : ClosedOnce p.files

theorem Inv.isOpen (h : p.Inv) (ho : o ∈ p.sockets) (hfd : p.fd o ≠ kInvalidFd) :
    IsOpen (p.fd o) p.files :=
  h.sound.alive _ (mem_valid.mpr ⟨⟨o, lookup_of_mem ho⟩, hfd⟩)

theorem Inv.closedOnce_close (h : p.Inv) (ho : o ∈ p.sockets) : ClosedOnce (p.close o).files := by
  unfold close
  split
  · exact h.once
  · next hfd => exact h.once.sysClose (h.isOpen ho hfd)

theorem Inv.closedOnce_next {call : SocketCall} (h : p.Inv) (hc : call.Legal p) :
    ClosedOnce (p.next call).files := by
  cases call with
  | default o => exact h.once
  | construct o fd => exact h.once.opened hc.2.2
  | moveConstruct o other => exact h.once
  | moveAssign o other =>
    show ClosedOnce (p.moveAssign o other).files
    unfold moveAssign
    split
    · exact h.closedOnce_close hc.1
    · exact h.once
  | close o => exact h.closedOnce_close hc
  | destroy o => exact h.closedOnce_close hc

end Process

open Process

theorem ownerMachine_kept : ownerMachine.Kept Inv := by
  intro p p' call h hstep
  obtain ⟨hc, hp'⟩ := Option.ite_none_right_eq_some.mp hstep
  cases hp'
  obtain ⟨hsound, hlost⟩ := moves_next hc h.sound
  exact ⟨hsound, hlost.mpr ⟨h.noneLost, trivial⟩, h.closedOnce_next hc⟩

theorem Process.Inv.initial : ownerMachine.init.Inv where
  sound := ⟨List.nodup_nil, fun _ h => absurd h List.not_mem_nil⟩
  noneLost _ h := by cases h
  once := ⟨fun _ h => absurd h List.not_mem_nil, .nil⟩

/-- **One owner, one close.** After any calls, each fd that is open is held by one socket, no
two sockets hold the same valid fd, no file was closed twice, and once no socket is left each
file was closed. -/
theorem one_owner_closed_once {calls : List SocketCall} {p : Process}
    (h : ownerMachine.run calls = some p) :
    (∀ f ∈ p.files, f.closes = 0 → ∃! o, p.sockets.lookup o = some f.fd) ∧
    (∀ o o' fd, p.sockets.lookup o = some fd → p.sockets.lookup o' = some fd →
      fd ≠ kInvalidFd → o = o') ∧
    (∀ f ∈ p.files, f.closes ≤ 1) ∧
    (p.sockets = ∅ → ∀ f ∈ p.files, f.closes = 1) := by
  have hinv : p.Inv := Machine.invariant Inv.initial ownerMachine_kept h
  have hone : ∀ o o' fd, p.sockets.lookup o = some fd → p.sockets.lookup o' = some fd →
      fd ≠ kInvalidFd → o = o' := fun o o' fd ho ho' hfd =>
    eq_of_lookup_eq hinv.sound.nodup (isValid_iff.mpr hfd) ho ho'
  have hheld : ∀ f ∈ p.files, f.closes = 0 → f.fd ∈ p.valid := fun f hf h0 =>
    hinv.noneLost _ (hinv.once.isOpen hf h0)
  refine ⟨fun f hf h0 => ?_, hone, hinv.once.1, fun hnone f hf => ?_⟩
  · obtain ⟨⟨o, ho⟩, hfd⟩ := mem_valid.mp (hheld f hf h0)
    exact ⟨o, ho, fun o' ho' => hone o' o f.fd ho' ho hfd⟩
  · have h1 : f.closes ≤ 1 := hinv.once.1 f hf
    have h0 : f.closes ≠ 0 := by
      intro h0
      obtain ⟨⟨o, ho⟩, -⟩ := mem_valid.mp (hheld f hf h0)
      rw [hnone] at ho
      cases ho
    omega

/-- The second fd takes the number of the first, which a move assignment has closed. -/
def reusedFd : List SocketCall :=
  [.construct 0 5, .default 1, .moveAssign 0 1, .construct 2 5, .moveConstruct 3 2,
    .moveAssign 3 3, .destroy 0, .destroy 1, .destroy 2, .destroy 3]

theorem reusedFd_closed_once :
    ∃ p, ownerMachine.run reusedFd = some p ∧ p.files.map (·.fd) = [5, 5] ∧
      ∀ f ∈ p.files, f.closes = 1 :=
  have h : ownerMachine.run reusedFd = some { files := [⟨5, 1⟩, ⟨5, 1⟩] } := rfl
  ⟨_, h, rfl, (one_owner_closed_once h).2.2.2 rfl⟩

end Hound
