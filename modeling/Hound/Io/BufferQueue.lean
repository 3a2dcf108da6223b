import Hound.Io.BufferRead
import Hound.Lib.Machine
import Mathlib.Logic.Relation

/-!
# The chain buffer refines a byte queue

`bufferMachine` is the buffer under its public calls, `byteQueue` the purpose of the
component: a list of bytes that is written at the end and read at the front.
`Refines` relates a queue to a valid buffer with that content, `refines_sim` is the
simulation, and `buffer_refines_queue` carries it along every run.
-/

namespace Hound

open Lib

/-- The calls a user of the buffer makes. `write src` is `begin_write()`, storing
`src` at the returned pointer, and `has_written(|src|)`. -/
inductive BufOp where
  | append (src : Bytes)
  | ensureWritable (len : Nat)
  | beginWrite
  | write (src : Bytes)
  | retrieve (len : Nat)
  | retrieveAll
  deriving DecidableEq

/-- The buffer under its calls; a caller may store no more than `*writable` bytes. -/
def bufferMachine [HeadMemory] : Machine Buffer BufOp where
  init := .new
  step b
    | .append src => some (b.append src)
    | .ensureWritable len => some (b.ensureWritable len)
    | .beginWrite => some b.begun
    | .write src => if src.length ≤ b.room then some (b.writeVia src) else none
    | .retrieve len => some (b.retrieve len)
    | .retrieveAll => some b.retrieveAll

def queueStep (q : Bytes) : BufOp → Bytes
  | .append src | .write src => q ++ src
  | .ensureWritable _ | .beginWrite => q
  | .retrieve len => q.drop (min len q.length)
  | .retrieveAll => []

/-- The abstract queue: every call is possible. -/
def byteQueue : Machine Bytes BufOp where
  init := []
  step q op := some (queueStep q op)

def Refines (q : Bytes) (b : Buffer) : Prop := b.Valid ∧ b.content = q

theorem refines_step [HeadMemory] {q : Bytes} {b b' : Buffer} {op : BufOp} (h : Refines q b)
    (hs : bufferMachine.step b op = some b') : Refines (queueStep q op) b' := by
  obtain ⟨hv, rfl⟩ := h
  cases op with
  | append src => cases hs; exact ⟨hv.append src, hv.content_append src⟩
  | ensureWritable len => cases hs; exact ⟨hv.ensureWritable len, hv.content_ensureWritable len⟩
  | beginWrite => cases hs; exact ⟨hv.begun, hv.content_begun⟩
  | write src =>
    simp only [bufferMachine, Option.ite_none_right_eq_some, Option.some.injEq] at hs
    obtain ⟨hle, rfl⟩ := hs
    exact ⟨hv.writeVia hle, hv.content_writeVia hle⟩
  | retrieve len =>
    cases hs
    refine ⟨hv.retrieve len, ?_⟩
    rw [hv.content_retrieve, queueStep]
    rcases Nat.le_total len b.content.length with hle | hle
    · rw [Nat.min_eq_left hle]
    · rw [Nat.min_eq_right hle, List.drop_eq_nil_of_le hle, List.drop_length]
  | retrieveAll => cases hs; exact ⟨hv.retrieveAll, Buffer.content_retrieveAll b⟩

theorem refines_sim [HeadMemory] : Machine.Sim byteQueue bufferMachine Refines where
  init := ⟨Buffer.valid_new, Buffer.content_new⟩
  step h hs := ⟨_, rfl, refines_step h hs⟩

theorem kept_valid [HeadMemory] : bufferMachine.Kept Buffer.Valid := fun hv hs =>
  (refines_step ⟨hv, rfl⟩ hs).1

theorem valid_of_run [HeadMemory] {ops : List BufOp} {b : Buffer}
    (h : bufferMachine.run ops = some b) :
    b.Valid := Machine.invariant Buffer.valid_new kept_valid h

namespace Buffer

/-- The `next` pointer of the block at position `i`. -/
def next (b : Buffer) (i : Nat) : Option Nat :=
  if i + 1 < b.blocks.length then some (i + 1) else none

/-- Block `j` is reached from block `i` along `next`. -/
def Reaches (b : Buffer) (i j : Nat) : Prop := Relation.ReflTransGen (b.next · = some ·) i j

theorem reaches_of_le {b : Buffer} {i : Nat} :
    ∀ {j : Nat}, i ≤ j → j < b.blocks.length → b.Reaches i j
  | 0, hij, _ => by rw [Nat.le_zero.mp hij]; exact .refl
  | j + 1, hij, hj => by
    rcases Nat.lt_or_eq_of_le hij with h | rfl
    · exact (reaches_of_le (Nat.le_of_lt_succ h) (by omega)).tail (if_pos hj)
    · exact .refl

end Buffer

/-- **Refinement.** After every run of calls the content is the queue's, `size`
counts it, `read_n` returns its prefixes, every block is well indexed and the write
block is behind the read block along `next`. -/
theorem buffer_refines_queue [HeadMemory] {ops : List BufOp} {b : Buffer}
    (h : bufferMachine.run ops = some b) :
    ∃ q, byteQueue.run ops = some q ∧ b.content = q ∧ b.size = q.length ∧
      (∀ n, b.readN n = if n ≤ b.size then q.take n else []) ∧
      (∀ k ∈ b.blocks, 0 ≤ k.readIdx ∧ k.readIdx ≤ k.writeIdx ∧ k.writeIdx ≤ 4096) ∧
      b.Reaches b.readBlock b.writeBlock := by
  obtain ⟨q, hq, hv, hc⟩ := refines_sim.run h
  refine ⟨q, hq, hc, hc ▸ hv.size_eq, fun n => hc ▸ hv.readN_eq n, fun k hk => ?_, ?_⟩
  · exact ⟨Nat.zero_le _, (hv.ok k hk).read_le, (hv.ok k hk).write_le⟩
  · exact Buffer.reaches_of_le hv.read_le hv.write_lt

/-- A run over a block boundary: 4096 bytes, three more, and a read of 4097. -/
theorem buffer_refines_queue_boundary :
    ∃ b, bufferMachine.run [.append (List.replicate 4096 65), .write [66, 67, 68],
      .retrieve 4097] = some b ∧ b.content = [67, 68] ∧ b.size = 2 := by
  obtain ⟨b, hb⟩ := Option.isSome_iff_exists.mp (show (bufferMachine.run
    [.append (List.replicate 4096 65), .write [66, 67, 68], .retrieve 4097]).isSome by
      decide +kernel)
  obtain ⟨q, hq, hc, hs, -⟩ := buffer_refines_queue hb
  have hq' : q = [67, 68] := by
    have : byteQueue.run [.append (List.replicate 4096 65), .write [66, 67, 68],
      .retrieve 4097] = some [67, 68] := by decide +kernel
    exact Option.some.inj (hq.symm.trans this)
  subst hq'
  exact ⟨b, hb, hc, hs⟩

end Hound
