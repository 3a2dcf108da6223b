import Hound.Io.BufferFront

/-!
# Buffers whose content lies in one block

`Whole b`: all that can be read lies in the read block, so that `peek` shows it all.
`OneBlock b n`: the buffer reads and writes its first block, into which `n` bytes have
been written. Reads keep either so (`Contiguous`), and writes keep `OneBlock` until the
block is full. `Jammed b`: no write can reach the read block any more; what it shows
(`window`) then changes by reads alone.
-/

namespace Hound.Buffer

def window (b : Buffer) : Bytes := b.peekData.take b.peekSize

/-- The memory behind them, up to the end of the block's array. -/
def beyond (b : Buffer) : Bytes := b.peekData.drop b.peekSize

variable {b : Buffer} {n : Nat}

theorem Valid.window_eq (h : b.Valid) : b.window = b.rd.bytes := by
  unfold window peekData peekSize
  split
  · next h0 =>
    have hc := h.content_eq
    rw [h.size_eq_zero_iff.mp h0] at hc
    rw [(List.append_eq_nil_iff.mp hc.symm).1]
    rfl
  · rfl

theorem Valid.window_le (h : b.Valid) : b.window.length ≤ b.size := by
  rw [h.window_eq, h.size_eq, h.content_eq, List.length_append]
  omega

theorem Valid.size_retrieve (h : b.Valid) (n : Nat) : (b.retrieve n).size = b.size - n := by
  rw [(h.retrieve n).size_eq, h.content_retrieve, List.length_drop, ← h.size_eq]

theorem Valid.drained_inside (h : b.Valid) (hn : 0 < n) (hlt : n < b.rd.readable) :
    b.drained n = b.consume n := by
  have hmin : min n b.rd.readable = n := by omega
  have hstep : b.retrieveStep n = b.consume n := by
    unfold retrieveStep
    rw [hmin]
    simp only
    rw [if_neg]
    rw [h.rd_consume]
    have := h.ok_rd.read_le
    simp only [Block.read, Block.readable] at hlt ⊢
    omega
  obtain ⟨f, hf⟩ := Nat.exists_eq_succ_of_ne_zero (show b.blocks.length ≠ 0 by
    have := h.write_lt; omega)
  by_cases he : b.readBlock = b.writeBlock
  · unfold drained
    simp only [retrieveLoop_same he, if_pos hn, hmin]
  · have hloop : retrieveLoop b.blocks.length b n = (b.consume n, 0) := by
      rw [hf, retrieveLoop, if_pos ⟨hn, he⟩, hstep, hmin, Nat.sub_self, retrieveLoop_zero]
    unfold drained
    simp only [hloop]
    rfl

/-- A property of buffers that `retrieve` keeps and under which `peek` shows everything. -/
structure Contiguous (J : Buffer → Prop) : Prop where
  valid : ∀ {b : Buffer}, J b → b.Valid
  window : ∀ {b : Buffer}, J b → b.window = b.content
  retrieve : ∀ {b : Buffer} (n : Nat), J b → J (b.retrieve n)

/-! ## All in the read block -/

structure Whole (b : Buffer) : Prop where
  valid : b.Valid
  whole : b.rd.bytes = b.content

theorem Valid.whole_of_nil (h : b.Valid) (h0 : b.content = []) : b.Whole := by
  have hc := h.content_eq
  rw [h0] at hc
  exact ⟨h, by rw [h0, (List.append_eq_nil_iff.mp hc.symm).1]⟩

theorem Whole.compact (h : b.Whole) : b.compact.Whole := by
  obtain ⟨hv, hc⟩ := h.valid.compact_spec
  refine ⟨hv, ?_⟩
  rw [hc]
  unfold Buffer.compact
  split
  · have hfit : b.content.length ≤ kBlockSize := by
      rw [← h.whole, h.valid.rd_bytes_length]
      have := h.valid.ok_rd.write_le
      unfold Block.readable
      omega
    rw [h.valid.rd_refill, List.take_of_length_le hfit]
  · exact h.whole

theorem Whole.retrieve (h : b.Whole) (n : Nat) : (b.retrieve n).Whole := by
  rcases Nat.eq_zero_or_pos n with rfl | hn
  · rw [retrieve_eq, if_pos rfl]; exact h
  rcases Nat.lt_or_ge n b.size with hlt | hge
  · have hread : n < b.rd.readable := by
      rw [← h.valid.rd_bytes_length, h.whole, ← h.valid.size_eq]; exact hlt
    rw [retrieve_eq, if_neg (by omega), Nat.min_eq_left (Nat.le_of_lt hlt),
      h.valid.drained_inside hn hread]
    refine Whole.compact ⟨h.valid.consume (Nat.le_of_lt hread), ?_⟩
    rw [h.valid.rd_consume, Block.bytes_read, h.whole,
      h.valid.content_consume (Nat.le_of_lt hread)]
  · refine (h.valid.retrieve n).whole_of_nil ?_
    rw [h.valid.content_retrieve, List.drop_eq_nil_iff, ← h.valid.size_eq]
    exact hge

theorem contiguous_whole : Contiguous Whole where
  valid h := h.valid
  window h := by rw [h.valid.window_eq, h.whole]
  retrieve n h := h.retrieve n

/-! ## One block -/

structure OneBlock (b : Buffer) (n : Nat) : Prop where
  valid : b.Valid
  read_zero : b.readBlock = 0
  write_zero : b.writeBlock = 0
  written : b.rd.writeIdx = n

theorem oneBlock_new [HeadMemory] : new.OneBlock 0 := ⟨valid_new, rfl, rfl, rfl⟩

theorem OneBlock.same (h : b.OneBlock n) : b.readBlock = b.writeBlock :=
  h.read_zero.trans h.write_zero.symm

theorem OneBlock.rd_eq_wr (h : b.OneBlock n) : b.rd = b.wr := by
  unfold rd wr; rw [h.same]

theorem OneBlock.window_eq (h : b.OneBlock n) : b.window = b.content := by
  rw [h.valid.window_eq, h.valid.content_eq_rd h.same]

theorem OneBlock.le (h : b.OneBlock n) : n ≤ kBlockSize := h.written ▸ h.valid.ok_rd.write_le

theorem OneBlock.writable (h : b.OneBlock n) : b.wr.writable = kBlockSize - n := by
  rw [← h.rd_eq_wr, ← h.written]; rfl

theorem OneBlock.room (h : b.OneBlock n) (hn : n < kBlockSize) : b.room = kBlockSize - n := by
  have hw := h.writable
  rw [room_eq, begun_eq, if_neg (by omega), hw]

theorem OneBlock.retrieve (h : b.OneBlock n) (len : Nat) : (b.retrieve len).OneBlock n := by
  have hv := h.valid.retrieve len
  rw [retrieve_eq] at hv ⊢
  split at hv
  · next h0 => rw [if_pos h0]; exact h
  · next h0 =>
    rw [if_neg h0]
    generalize min len b.size = k at hv ⊢
    -- the loop does not run, and a buffer at its first block is not compacted
    have hd : b.drained k = if 0 < k then b.consume (min k b.rd.readable) else b := by
      unfold drained; rw [retrieveLoop_same h.same]
    have hd0 : (b.drained k).readBlock = 0 ∧ (b.drained k).writeBlock = 0 ∧
        (b.drained k).rd.writeIdx = n := by
      rw [hd]
      split
      · exact ⟨h.read_zero, h.write_zero, by rw [h.valid.rd_consume]; exact h.written⟩
      · exact ⟨h.read_zero, h.write_zero, h.written⟩
    have hcomp : (b.drained k).compact = b.drained k := by
      unfold compact; rw [if_neg (by simp [hd0.1])]
    rw [hcomp] at hv ⊢
    exact ⟨hv, hd0.1, hd0.2.1, hd0.2.2⟩

theorem OneBlock.writeVia (h : b.OneBlock n) {src : Bytes} (hs : n + src.length ≤ kBlockSize)
    (hn : n < kBlockSize) : (b.writeVia src).OneBlock (n + src.length) := by
  have hroom : src.length ≤ b.room := by rw [h.room hn]; omega
  have hb : b.begun = b := by rw [begun_eq, if_neg (by rw [h.writable]; omega)]
  have hw := h.valid.writeVia_eq hroom
  rw [hb] at hw
  refine ⟨h.valid.writeVia hroom, by rw [hw]; exact h.read_zero, by rw [hw]; exact h.write_zero, ?_⟩
  rw [hw, h.valid.rd_put, if_pos h.same, ← h.written]
  rfl

theorem contiguous_oneBlock (n : Nat) : Contiguous (OneBlock · n) where
  valid h := h.valid
  window h := h.window_eq
  retrieve len h := h.retrieve len

/-! ## A read block that takes no more -/

structure Jammed (b : Buffer) : Prop where
  valid : b.Valid
  full : b.readBlock = b.writeBlock → b.wr.writable = 0

theorem OneBlock.jammed (h : b.OneBlock kBlockSize) : b.Jammed :=
  ⟨h.valid, fun _ => by rw [h.writable, Nat.sub_self]⟩

/-- The room in the new block, when the write block is the one that is full. -/
theorem Jammed.room (h : b.Jammed) (hsame : b.readBlock = b.writeBlock) : b.room = kBlockSize := by
  rw [room_eq, begun_eq, if_pos (h.full hsame), h.valid.wr_nextWriteBlock.writable]

/-- A write moves on to another block, and the window stays as it is. -/
theorem Jammed.writeVia (h : b.Jammed) {src : Bytes} (hs : src.length ≤ b.room) :
    (b.writeVia src).Jammed ∧ (b.writeVia src).window = b.window := by
  have hv := h.valid.writeVia hs
  refine ⟨⟨hv, fun he => ?_⟩, ?_⟩
  · exfalso
    have hle := h.valid.read_le
    rw [h.valid.writeVia_eq hs] at he
    have hr : (b.begun.put src).readBlock = b.readBlock := readBlock_begun b
    have hw : (b.begun.put src).writeBlock = b.begun.writeBlock := rfl
    rw [hr, hw, begun_eq] at he
    split at he
    · simp only [nextWriteBlock] at he; omega
    · next hne => exact hne (h.full he)
  · rw [hv.window_eq, h.valid.window_eq, h.valid.rd_writeVia hs, if_neg, List.append_nil]
    rintro ⟨he, hpos⟩
    rw [h.full he] at hpos
    exact absurd hpos (Nat.lt_irrefl 0)

end Hound.Buffer
