import Hound.Basic
import Hound.Lib.Lists

/-!
# The chain buffer

`Block` and `Buffer` follow `io/buffer.h`. The linked list is the list `blocks` in
`next` order with `head_` first, and a block pointer is a position in it:
`read_block_->next` is position `readBlock + 1`, null past the end. Blocks are only
ever added at the tail (`alloc_block` fills a null `next` of the write block), so
positions are stable. Allocation does not fail (`LOG_FATAL` ends the process).

`size_t` differences such as `write_idx - read_idx` are natural-number differences:
`Buffer.Valid` (`BufferInv.lean`) rules out that one is negative.
-/

namespace Hound

def kBlockSize : Nat := 4096

structure Block where
  data : Bytes
  readIdx : Nat := 0
  writeIdx : Nat := 0
  deriving DecidableEq

namespace Block

/-- `new Block()`: zeroed, both indices 0. -/
def fresh : Block := { data := List.replicate kBlockSize 0 }

def readable (k : Block) : Nat := k.writeIdx - k.readIdx

def writable (k : Block) : Nat := kBlockSize - k.writeIdx

def reset (k : Block) : Block := { k with readIdx := 0, writeIdx := 0 }

/-- `data[read_idx, write_idx)`. -/
def bytes (k : Block) : Bytes := (k.data.drop k.readIdx).take k.readable

end Block

/-- What `head_.data` holds when a `Buffer` is made: nothing initialises it. -/
class HeadMemory where
  page : Bytes
  length_page : page.length = kBlockSize

/-- Zeros, in examples. -/
instance : HeadMemory := ⟨List.replicate kBlockSize 0, List.length_replicate⟩

structure Buffer where
  blocks : List Block
  readBlock : Nat
  writeBlock : Nat
  size : Nat
  deriving DecidableEq

namespace Buffer

/-- `Buffer()`. -/
def new [HeadMemory] : Buffer :=
  { blocks := [{ data := HeadMemory.page }], readBlock := 0, writeBlock := 0, size := 0 }

def blockAt (b : Buffer) (i : Nat) : Block := b.blocks.getD i .fresh

/-- `*read_block_`. -/
def rd (b : Buffer) : Block := b.blockAt b.readBlock

/-- `*write_block_`. -/
def wr (b : Buffer) : Block := b.blockAt b.writeBlock

/-- The readable content: `data[read_idx, write_idx)` of each block from `read_block_` on. -/
def content (b : Buffer) : Bytes := (b.blocks.drop b.readBlock).flatMap Block.bytes

/-! ## Writing -/

/-- `if (!write_block_->next) write_block_->next = alloc_block();`
`write_block_ = write_block_->next;` -/
def nextWriteBlock (b : Buffer) : Buffer :=
  { b with
    blocks := if b.writeBlock + 1 < b.blocks.length then b.blocks else b.blocks ++ [.fresh]
    writeBlock := b.writeBlock + 1 }

/-- Copy `src` to the write position of the write block and advance it. -/
def put (b : Buffer) (src : Bytes) : Buffer :=
  { b with
    blocks := b.blocks.modify b.writeBlock fun k =>
      { k with data := memcpy k.data k.writeIdx src, writeIdx := k.writeIdx + src.length }
    size := b.size + src.length }

/-- The number of full blocks from the write block on: what `append` can skip. -/
def fullFrom (b : Buffer) : Nat := (b.blocks.drop b.writeBlock).countP (·.writable = 0)

theorem drop_eq_blockAt_cons {b : Buffer} {i : Nat} (h : i < b.blocks.length) :
    b.blocks.drop i = b.blockAt i :: b.blocks.drop (i + 1) := by
  rw [List.drop_eq_getElem_cons h, blockAt, List.getD_eq_getElem _ _ h]

theorem writable_fresh : Block.fresh.writable = kBlockSize := rfl

theorem fullFrom_nextWriteBlock {b : Buffer} (h : b.wr.writable = 0) :
    b.nextWriteBlock.fullFrom < b.fullFrom := by
  have hlt : b.writeBlock < b.blocks.length := by
    by_contra hge
    rw [wr, blockAt, List.getD_eq_default _ _ (by omega), writable_fresh] at h
    exact absurd h (by decide)
  have hb : b.fullFrom = (b.blocks.drop (b.writeBlock + 1)).countP (·.writable = 0) + 1 := by
    rw [fullFrom, drop_eq_blockAt_cons hlt, List.countP_cons_of_pos (by simpa [wr] using h)]
  rw [hb, fullFrom, nextWriteBlock]
  simp only
  split
  · omega
  · rw [List.drop_append_of_le_length (by omega), List.countP_append]
    simp [writable_fresh, kBlockSize]

theorem fullFrom_put_le (b : Buffer) (src : Bytes) : (b.put src).fullFrom ≤ b.fullFrom + 1 := by
  unfold fullFrom put
  simp only [List.drop_modify_of_ge, Nat.le_refl]
  exact Lib.countP_modify_le _ _ _ _

/-- `Buffer::append`: fill the write block, move to the next one when it is full. -/
def append (b : Buffer) (src : Bytes) : Buffer :=
  if src = [] then b
  else if b.wr.writable = 0 then b.nextWriteBlock.append src
  else
    let toCopy := min src.length b.wr.writable
    (b.put (src.take toCopy)).append (src.drop toCopy)
termination_by 2 * src.length + b.fullFrom
decreasing_by
  · have := fullFrom_nextWriteBlock ‹_›
    omega
  · have := fullFrom_put_le b (src.take (min src.length b.wr.writable))
    have : 0 < src.length := List.length_pos_iff.mpr ‹_›
    simp only [List.length_drop]
    omega

/-- The `char*` that `begin_write` returns: a block and an offset into its `data`. -/
structure WritePtr where
  block : Nat
  offset : Nat

/-- `Buffer::begin_write`: the buffer, `*writable` and the returned pointer. -/
def beginWrite (b : Buffer) : Buffer × Nat × WritePtr :=
  let b := if b.wr.writable = 0 then b.nextWriteBlock else b
  (b, b.wr.writable, ⟨b.writeBlock, b.wr.writeIdx⟩)

/-- The caller stores `src` at a pointer it got from `begin_write`. -/
def storeAt (b : Buffer) (p : WritePtr) (src : Bytes) : Buffer :=
  { b with
    blocks := b.blocks.modify p.block fun k => { k with data := memcpy k.data p.offset src } }

def hasWritten (b : Buffer) (len : Nat) : Buffer :=
  let len := if b.wr.writable < len then b.wr.writable else len
  { b with
    blocks := b.blocks.modify b.writeBlock fun k => { k with writeIdx := k.writeIdx + len }
    size := b.size + len }

def ensureWritable (b : Buffer) (len : Nat) : Buffer :=
  if len ≤ b.wr.writable then b else b.nextWriteBlock

/-! ## Reading -/

/-- `Buffer::peek_data`: the memory from the returned pointer to the end of the block's array. -/
def peekData (b : Buffer) : Bytes := if b.size = 0 then [] else b.rd.data.drop b.rd.readIdx

def peekSize (b : Buffer) : Nat := if b.size = 0 then 0 else b.rd.readable

def peek (b : Buffer) : Bytes := if b.size = 0 then [] else b.rd.bytes

/-- `none` when the byte read lies outside the block's array. -/
def peekByte (b : Buffer) : Option Int :=
  if b.size = 0 then some (-1) else b.rd.data[b.rd.readIdx]?.map fun c => (c.toNat : Int)

/-- The loop of `read_n` over the blocks from `block` on. -/
def readLoop : List Block → Nat → Bytes
  | [], _ => []
  | k :: ks, remaining =>
    if 0 < remaining then
      let toCopy := min remaining k.readable
      (k.data.drop k.readIdx).take toCopy ++ readLoop ks (remaining - toCopy)
    else []

def readN (b : Buffer) (len : Nat) : Bytes :=
  if b.size < len then [] else readLoop (b.blocks.drop b.readBlock) len

def retrieveAll (b : Buffer) : Buffer :=
  { blocks := b.blocks.map Block.reset, readBlock := 0, writeBlock := 0, size := 0 }

/-- `read_block_->read_idx += n; size_ -= n;` -/
def consume (b : Buffer) (n : Nat) : Buffer :=
  { b with
    blocks := b.blocks.modify b.readBlock fun k => { k with readIdx := k.readIdx + n }
    size := b.size - n }

/-- One turn of the first loop of `retrieve`: consume from the read block and
leave it when it is drained. -/
def retrieveStep (b : Buffer) (remaining : Nat) : Buffer :=
  let b := b.consume (min remaining b.rd.readable)
  if b.rd.readIdx = b.rd.writeIdx then { b with readBlock := b.readBlock + 1 } else b

/-- The first loop of `retrieve`. A turn leaves the read block or consumes all of
`remaining`, so the number of blocks bounds the number of turns. -/
def retrieveLoop : Nat → Buffer → Nat → Buffer × Nat
  | 0, b, remaining => (b, remaining)
  | fuel + 1, b, remaining =>
    if 0 < remaining ∧ b.readBlock ≠ b.writeBlock then
      retrieveLoop fuel (b.retrieveStep remaining) (remaining - min remaining b.rd.readable)
    else (b, remaining)

/-- The end of `retrieve`: move the remaining data back into `head_`. -/
def compact (b : Buffer) : Buffer :=
  if b.readBlock ≠ 0 ∧ 0 < b.size then b.retrieveAll.append (b.readN b.size) else b

def retrieve (b : Buffer) (len : Nat) : Buffer :=
  if len = 0 then b
  else
    let len := if b.size < len then b.size else len
    let (b, remaining) := retrieveLoop b.blocks.length b len
    -- what is left lies in the block that is read and written
    let b := if 0 < remaining then b.consume (min remaining b.rd.readable) else b
    b.compact

/-! ## Searching -/

/-- The inner loop of `find`: compare the needle from `matched` on with what the blocks hold,
from position `searchIdx` of the first one. At the end of the chain `match` is still true. -/
def matchLoop (needle : Bytes) : List Block → Nat → Nat → Bool
  | [], _, _ => true
  | k :: ks, searchIdx, matched =>
    if matched < needle.length then
      let available := k.readable - searchIdx
      let toCheck := min (needle.length - matched) available
      if (k.data.drop (k.readIdx + searchIdx)).take toCheck ≠ (needle.drop matched).take toCheck then
        false
      else matchLoop needle ks 0 (matched + toCheck)
    else true

/-- The loop of `find` over the blocks from `block` on, whose content begins at `offset`. -/
def findLoop (needle : Bytes) (size : Nat) : List Block → Nat → Int
  | [], _ => -1
  | k :: ks, offset =>
    let starts := (List.range k.readable).takeWhile fun i => offset + i + needle.length ≤ size
    match starts.find? fun i => matchLoop needle (k :: ks) i 0 with
    | some i => offset + i
    | none => findLoop needle size ks (offset + k.readable)

def find (b : Buffer) (needle : Bytes) : Int :=
  if needle = [] ∨ b.size < needle.length then -1
  else findLoop needle b.size (b.blocks.drop b.readBlock) 0

/-- The loop of `find(char)`; `memchr` searches the readable part of a block. -/
def findCharLoop (c : Byte) : List Block → Nat → Int
  | [], _ => -1
  | k :: ks, offset =>
    match k.bytes.idxOf? c with
    | some pos => offset + pos
    | none => findCharLoop c ks (offset + k.readable)

def findChar (b : Buffer) (c : Byte) : Int :=
  if b.size = 0 then -1 else findCharLoop c (b.blocks.drop b.readBlock) 0

/-- The bytes of the view that `Buffer::read_until` returns. -/
def readUntil (b : Buffer) (delim : Bytes) : Bytes :=
  let pos := b.find delim
  if pos < 0 then []
  else
    let total := pos.toNat + delim.length
    if total ≤ b.rd.readable then (b.rd.data.drop b.rd.readIdx).take total else []

end Buffer

end Hound
