import Hound.Io.BufferQueue

/-!
# How many blocks a buffer keeps

Blocks are freed by the destructor only, so their number is bounded by what the write block
has to run through. `Tight` is the layout that keeps it in bounds: when reading starts at
`head_`, everything between the read and the write position is content. A `retrieve` that
empties the buffer behind `head_` leaves `read_block_` there, and each block that is
allocated from then on is one too many. `block_count_le` bounds the blocks of a run that
allocates only while `read_block_` is `head_`.
-/

namespace Hound

open Lib

namespace Buffer

variable {b : Buffer} {src : Bytes} {M : Nat}

/-- `Buffer::block_count`: `head_` and the blocks behind it. -/
def blockCount (b : Buffer) : Nat := 1 + b.blocks.tail.length

/-- The room in the write block and the blocks behind it. -/
def spare (b : Buffer) : Nat := (b.blocks.drop b.writeBlock).foldr (·.writable + ·) 0

/-- When reading starts at `head_`, no block up to the write position has room left. -/
def Tight (b : Buffer) : Prop :=
  b.readBlock = 0 →
    b.size + (b.blockAt 0).readIdx = kBlockSize * b.writeBlock + b.wr.writeIdx

theorem Valid.blockCount_eq (h : b.Valid) : b.blockCount = b.blocks.length := by
  have := h.write_lt
  rw [blockCount, List.length_tail]
  omega

/-! ## The write position -/

theorem tight_new [HeadMemory] : new.Tight := fun _ => rfl

theorem Valid.tight_nextWriteBlock (h : b.Valid) (ht : b.Tight) (hfull : b.wr.writable = 0) :
    b.nextWriteBlock.Tight := by
  intro hr
  have ht := ht hr
  obtain ⟨l, hl, -⟩ := blocks_nextWriteBlock b
  have h0 : b.nextWriteBlock.blockAt 0 = b.blockAt 0 := by
    have := h.write_lt
    simp only [blockAt, hl, List.getD_append _ _ _ _ (Nat.zero_lt_of_lt this)]
  have hidx : b.wr.writeIdx = kBlockSize := by
    have := (h.ok_at h.write_lt).write_le
    unfold Block.writable wr at hfull
    unfold wr
    omega
  have hw : b.nextWriteBlock.writeBlock = b.writeBlock + 1 := rfl
  have hs : b.nextWriteBlock.size = b.size := rfl
  rw [h0, h.wr_nextWriteBlock.2, hw, hs, ht, hidx]
  rfl

theorem Valid.tight_put (h : b.Valid) (ht : b.Tight) (src : Bytes) : (b.put src).Tight := by
  intro hr
  have ht := ht hr
  have h0 : ((b.put src).blockAt 0).readIdx = (b.blockAt 0).readIdx := by
    have hlt : 0 < b.blocks.length := Nat.zero_lt_of_lt h.write_lt
    have := blockAt_modify b 0 b.writeBlock (·.write src) hlt
    rw [put_eq, show ∀ n, ({ b with blocks := _, size := n } : Buffer).blockAt 0 = _ from
      fun _ => this]
    split <;> rfl
  have hs : (b.put src).size = b.size + src.length := rfl
  have hwb : (b.put src).writeBlock = b.writeBlock := rfl
  rw [h0, h.wr_put, hs, hwb, Block.write]
  simp only
  omega

theorem Valid.tight_append (h : b.Valid) (ht : b.Tight) (src : Bytes) : (b.append src).Tight := by
  fun_induction Buffer.append b src with
  | case1 b => exact ht
  | case2 b src _ hfull ih => exact ih h.nextWriteBlock (h.tight_nextWriteBlock ht hfull)
  | case3 b src _ _ toCopy ih =>
    exact ih (h.put (length_toCopy_le b src)) (h.tight_put ht _)

theorem Valid.tight_begun (h : b.Valid) (ht : b.Tight) : b.begun.Tight := by
  rw [begun_eq]
  split
  · next hfull => exact h.tight_nextWriteBlock ht hfull
  · exact ht

/-! ## The read position -/

theorem Valid.readable_le_size (h : b.Valid) : b.rd.readable ≤ b.size := by
  rw [h.size_eq, h.content_eq, List.length_append, h.rd_bytes_length]
  omega

/-- The write position and the number of blocks are the same. -/
structure SameWrite (b b' : Buffer) : Prop where
  block : b'.writeBlock = b.writeBlock
  idx : b'.wr.writeIdx = b.wr.writeIdx
  length : b'.blocks.length = b.blocks.length

theorem SameWrite.trans {b b' b'' : Buffer} (h : SameWrite b b') (h' : SameWrite b' b'') :
    SameWrite b b'' :=
  ⟨h'.block.trans h.block, h'.idx.trans h.idx, h'.length.trans h.length⟩

theorem sameWrite_consume (hlt : b.writeBlock < b.blocks.length) (n : Nat) :
    SameWrite b (b.consume n) := by
  refine ⟨rfl, ?_, List.length_modify _ _ _⟩
  have := blockAt_modify b b.writeBlock b.readBlock (·.read n) hlt
  rw [wr, consume_eq, show ∀ n, ({ b with blocks := _, size := n } : Buffer).blockAt _ = _ from
    fun _ => this]
  split <;> rfl

theorem sameWrite_retrieveStep (hlt : b.writeBlock < b.blocks.length) (n : Nat) :
    SameWrite b (b.retrieveStep n) := by
  obtain ⟨h1, h2, h3⟩ := sameWrite_consume hlt (min n b.rd.readable)
  unfold Buffer.retrieveStep
  simp only
  split
  · exact ⟨h1, h2, h3⟩
  · exact ⟨h1, h2, h3⟩

theorem sameWrite_retrieveLoop : ∀ {fuel : Nat} {b : Buffer} {n : Nat},
    b.writeBlock < b.blocks.length → SameWrite b (retrieveLoop fuel b n).1
  | 0, _, _, _ => ⟨rfl, rfl, rfl⟩
  | fuel + 1, b, n, hlt => by
    rw [retrieveLoop]
    split
    · have hs := sameWrite_retrieveStep hlt n
      exact hs.trans (sameWrite_retrieveLoop (by rw [hs.block, hs.length]; exact hlt))
    · exact ⟨rfl, rfl, rfl⟩

theorem sameWrite_drained (hlt : b.writeBlock < b.blocks.length) (len : Nat) :
    SameWrite b (b.drained len) := by
  have hl : SameWrite b (retrieveLoop b.blocks.length b len).1 := sameWrite_retrieveLoop hlt
  unfold drained
  simp only
  split
  · exact hl.trans (sameWrite_consume (by rw [hl.block, hl.length]; exact hlt) _)
  · exact hl

theorem Valid.tight_consume (h : b.Valid) (ht : b.Tight) {n : Nat} (hn : n ≤ b.rd.readable) :
    (b.consume n).Tight := by
  intro hr
  have ht := ht hr
  have hle := h.readable_le_size
  have h0 : (b.consume n).blockAt 0 = (b.blockAt 0).read n := by
    have := h.rd_consume n
    rwa [rd, rd, show (b.consume n).readBlock = 0 from hr, show b.readBlock = 0 from hr] at this
  have hw := (sameWrite_consume h.write_lt n).idx
  have hs : (b.consume n).size = b.size - n := rfl
  have hwb : (b.consume n).writeBlock = b.writeBlock := rfl
  rw [h0, hw, hs, hwb, Block.read]
  simp only
  omega

theorem Valid.tight_retrieveStep (h : b.Valid) (ht : b.Tight) (n : Nat) :
    (b.retrieveStep n).Tight := by
  have hc := h.tight_consume ht (Nat.min_le_right n b.rd.readable)
  unfold Buffer.retrieveStep
  simp only
  split
  · exact fun hr => absurd hr (Nat.succ_ne_zero _)
  · exact hc

theorem Valid.tight_retrieveLoop : ∀ {fuel : Nat} {b : Buffer} {n : Nat}, b.Valid → b.Tight →
    (retrieveLoop fuel b n).1.Tight
  | 0, _, _, _, ht => ht
  | fuel + 1, b, n, h, ht => by
    rw [retrieveLoop]
    split
    · next hc =>
      exact Valid.tight_retrieveLoop (h.retrieveStep_spec hc.2).1 (h.tight_retrieveStep ht n)
    · exact ht

theorem Valid.tight_drained (h : b.Valid) (ht : b.Tight) (len : Nat) : (b.drained len).Tight := by
  have hv := (retrieveLoop_spec (n := len) h h.fuel_ok).1
  have hl : (retrieveLoop b.blocks.length b len).1.Tight := h.tight_retrieveLoop ht
  unfold drained
  simp only
  split
  · exact hv.tight_consume hl (Nat.min_le_right _ _)
  · exact hl

theorem Valid.tight_retrieveAll (h : b.Valid) : b.retrieveAll.Tight := by
  intro _
  have hlt : 0 < b.blocks.length := Nat.zero_lt_of_lt h.write_lt
  simp [Buffer.retrieveAll, wr, blockAt, hlt, Block.reset]

theorem Valid.tight_retrieve (h : b.Valid) (ht : b.Tight) (len : Nat) :
    (b.retrieve len).Tight := by
  rw [retrieve_eq]
  split
  · exact ht
  · have hv := (h.drained_spec (Nat.min_le_right len b.size)).1
    unfold compact
    split
    · exact hv.retrieveAll.tight_append hv.tight_retrieveAll _
    · exact h.tight_drained ht _

/-! ## The number of blocks -/

theorem length_nextWriteBlock (h : b.writeBlock < b.blocks.length) :
    b.nextWriteBlock.blocks.length = max b.blocks.length (b.writeBlock + 2) := by
  simp only [Buffer.nextWriteBlock]
  split
  · omega
  · rw [List.length_append, List.length_singleton]
    omega

@[simp] theorem length_put (b : Buffer) (src : Bytes) :
    (b.put src).blocks.length = b.blocks.length := List.length_modify _ _ _

theorem writeBlock_le_append (b : Buffer) (src : Bytes) :
    b.writeBlock ≤ (b.append src).writeBlock := by
  fun_induction Buffer.append b src with
  | case1 b => exact Nat.le_refl _
  | case2 b src _ _ ih => exact Nat.le_trans (Nat.le_succ _) ih
  | case3 b src _ _ toCopy ih => exact ih

theorem Valid.length_append (h : b.Valid) (src : Bytes) :
    (b.append src).blocks.length = max b.blocks.length ((b.append src).writeBlock + 1) := by
  fun_induction Buffer.append b src with
  | case1 b =>
    have := h.write_lt
    omega
  | case2 b src _ _ ih =>
    have hmono := writeBlock_le_append b.nextWriteBlock src
    have hw : b.nextWriteBlock.writeBlock = b.writeBlock + 1 := rfl
    rw [ih h.nextWriteBlock, length_nextWriteBlock h.write_lt]
    omega
  | case3 b src _ _ toCopy ih =>
    rw [ih (h.put (length_toCopy_le b src)), length_put]

theorem Valid.spare_eq (h : b.Valid) :
    b.spare = b.wr.writable + (b.blocks.drop (b.writeBlock + 1)).foldr (·.writable + ·) 0 := by
  rw [spare, drop_eq_blockAt_cons h.write_lt, List.foldr_cons, wr]

theorem Valid.spare_put (h : b.Valid) (src : Bytes) :
    (b.put src).spare = b.wr.writable - src.length +
      (b.blocks.drop (b.writeBlock + 1)).foldr (·.writable + ·) 0 := by
  have hlt : b.writeBlock < (b.put src).blocks.length := by simpa using h.write_lt
  have hw : (b.put src).blockAt b.writeBlock = b.wr.write src := h.wr_put src
  have hrest : (b.put src).blocks.drop (b.writeBlock + 1) = b.blocks.drop (b.writeBlock + 1) :=
    List.drop_modify_of_lt _ _ _ _ (Nat.lt_succ_self _)
  have hwb : (b.put src).writeBlock = b.writeBlock := rfl
  rw [spare, hwb, drop_eq_blockAt_cons hlt, List.foldr_cons, hw, hrest]
  simp only [Block.write, Block.writable]
  omega

theorem Valid.nextWriteBlock_of_spare (h : b.Valid) (hfull : b.wr.writable = 0)
    (hs : 0 < b.spare) : b.nextWriteBlock.blocks = b.blocks ∧ b.nextWriteBlock.spare = b.spare := by
  have hlt : b.writeBlock + 1 < b.blocks.length := by
    by_contra hge
    rw [h.spare_eq, hfull, List.drop_eq_nil_of_le (by omega)] at hs
    exact absurd hs (by simp)
  have hb : b.nextWriteBlock.blocks = b.blocks := by simp [Buffer.nextWriteBlock, hlt]
  refine ⟨hb, ?_⟩
  rw [h.spare_eq, hfull, Nat.zero_add, spare, hb]
  rfl

theorem Valid.length_append_of_spare (h : b.Valid) (hs : src.length ≤ b.spare) :
    (b.append src).blocks.length = b.blocks.length := by
  fun_induction Buffer.append b src with
  | case1 b => rfl
  | case2 b src hne hfull ih =>
    have hpos : 0 < src.length := List.length_pos_iff.mpr hne
    obtain ⟨hb, hspare⟩ := h.nextWriteBlock_of_spare hfull (by omega)
    rw [ih h.nextWriteBlock (hspare ▸ hs), hb]
  | case3 b src _ _ toCopy ih =>
    have hle : (src.take toCopy).length ≤ b.wr.writable := length_toCopy_le b src
    rw [ih (h.put hle), length_put]
    rw [h.spare_put]
    rw [h.spare_eq] at hs
    simp only [List.length_take, List.length_drop, toCopy] at hle ⊢
    omega

theorem readBlock_append (b : Buffer) (src : Bytes) : (b.append src).readBlock = b.readBlock := by
  fun_induction Buffer.append b src with
  | case1 b => rfl
  | case2 b src _ _ ih => exact ih
  | case3 b src _ _ toCopy ih => exact ih

/-! ## The bound -/

/-- What a buffer with at most `M` bytes keeps. -/
structure Bounded (M : Nat) (b : Buffer) : Prop where
  valid : b.Valid
  tight : b.Tight
  count_le : b.blocks.length ≤ M / kBlockSize + 2

theorem bounded_new [HeadMemory] : new.Bounded M :=
  ⟨valid_new, tight_new, Nat.le_trans (Nat.le_succ 1) (Nat.le_add_left 2 _)⟩

/-- The content pushes the write position no further than the bound. -/
theorem Valid.writeBlock_le (h : b.Valid) (ht : b.Tight) (hr : b.readBlock = 0)
    (hM : b.size ≤ M) : b.writeBlock + 1 ≤ M / kBlockSize + 2 := by
  have ht := ht hr
  have h0 : (b.blockAt 0).Ok := h.ok_at (Nat.zero_lt_of_lt h.write_lt)
  have hread := Nat.le_trans h0.read_le h0.write_le
  unfold kBlockSize at *
  omega

theorem Bounded.grown {b' : Buffer} (hb : b.Bounded M) (hv : b'.Valid) (ht : b'.Tight)
    (hr : b'.readBlock = 0) (hM : b'.size ≤ M)
    (hlen : b'.blocks.length = max b.blocks.length (b'.writeBlock + 1)) : b'.Bounded M := by
  refine ⟨hv, ht, ?_⟩
  have hw := hv.writeBlock_le ht hr hM
  have hle := hb.count_le
  omega

theorem Bounded.append (hb : b.Bounded M) (hs : src.length ≤ b.spare ∨ b.readBlock = 0)
    (hM : (b.append src).size ≤ M) : (b.append src).Bounded M := by
  have hv := hb.valid.append src
  have ht := hb.valid.tight_append hb.tight src
  rcases hs with hs | hr
  · exact ⟨hv, ht, (hb.valid.length_append_of_spare hs).symm ▸ hb.count_le⟩
  · exact hb.grown hv ht ((readBlock_append b src).trans hr) hM (hb.valid.length_append src)

theorem Bounded.begun (hb : b.Bounded M) (hs : 0 < b.spare ∨ b.readBlock = 0)
    (hM : b.size ≤ M) : b.begun.Bounded M := by
  have hv := hb.valid.begun
  have ht := hb.valid.tight_begun hb.tight
  by_cases hfull : b.wr.writable = 0
  · have he : b.begun = b.nextWriteBlock := by rw [begun_eq, if_pos hfull]
    rw [he] at hv ht ⊢
    rcases hs with hs | hr
    · exact ⟨hv, ht, (hb.valid.nextWriteBlock_of_spare hfull hs).1.symm ▸ hb.count_le⟩
    · exact hb.grown hv ht hr hM (length_nextWriteBlock hb.valid.write_lt)
  · rw [begun_eq, if_neg hfull]
    exact hb

theorem Bounded.retrieve (hb : b.Bounded M) (len : Nat) (hM : (b.retrieve len).size ≤ M) :
    (b.retrieve len).Bounded M := by
  have hv := hb.valid.retrieve len
  have ht := hb.valid.tight_retrieve hb.tight len
  by_cases hlen : len = 0
  · rwa [retrieve_eq, if_pos hlen]
  · have he : b.retrieve len = (b.drained (min len b.size)).compact := by
      rw [retrieve_eq, if_neg hlen]
    have hd := (hb.valid.drained_spec (Nat.min_le_right len b.size)).1
    have hl := (sameWrite_drained hb.valid.write_lt (min len b.size)).length
    rw [he] at hv ht hM ⊢
    generalize b.drained (min len b.size) = d at *
    by_cases hmove : d.readBlock ≠ 0 ∧ 0 < d.size
    · rw [compact, if_pos hmove] at hv ht hM ⊢
      refine hb.grown hv ht (readBlock_append _ _) hM ?_
      rw [hd.retrieveAll.length_append]
      simp [Buffer.retrieveAll, hl]
    · rw [compact, if_neg hmove] at hv ht ⊢
      exact ⟨hv, ht, hl ▸ hb.count_le⟩

theorem Bounded.retrieveAll (hb : b.Bounded M) : b.retrieveAll.Bounded M :=
  ⟨hb.valid.retrieveAll, hb.valid.tight_retrieveAll, by
    simpa [Buffer.retrieveAll] using hb.count_le⟩

end Buffer

open Buffer

/-- The calls that stream bytes through a buffer: all but `ensure_writable`. -/
def BufOp.Streams (op : BufOp) : Prop := ∀ len, op ≠ .ensureWritable len

/-- No block is allocated for the call unless `read_block_` is `head_`. -/
def Reuses (b : Buffer) : BufOp → Prop
  | .append src => src.length ≤ b.spare ∨ b.readBlock = 0
  | .beginWrite | .write _ => 0 < b.spare ∨ b.readBlock = 0
  | .ensureWritable _ | .retrieve _ | .retrieveAll => True

theorem bounded_step [HeadMemory] {M : Nat} {b b' : Buffer} {op : BufOp} (hb : b.Bounded M)
    (hop : op.Streams) (hc : Reuses b op) (hM : b'.size ≤ M)
    (hs : bufferMachine.step b op = some b') : b'.Bounded M := by
  cases op with
  | append src => cases hs; exact hb.append hc hM
  | ensureWritable len => exact absurd rfl (hop len)
  | beginWrite =>
    cases hs
    have hsize : b.begun.size = b.size := by rw [begun_eq]; split <;> rfl
    exact hb.begun hc (hsize ▸ hM)
  | write src =>
    simp only [bufferMachine, Option.ite_none_right_eq_some, Option.some.injEq] at hs
    obtain ⟨hle, rfl⟩ := hs
    have hv := hb.valid.writeVia hle
    rw [hb.valid.writeVia_eq hle] at hv hM ⊢
    have hsize : (b.begun.put src).size = b.size + src.length := by
      rw [begun_eq]; split <;> rfl
    have hbegun := hb.begun hc (by omega)
    exact ⟨hv, hbegun.valid.tight_put hbegun.tight src, by simpa using hbegun.count_le⟩
  | retrieve len => cases hs; exact hb.retrieve len hM
  | retrieveAll => cases hs; exact hb.retrieveAll

/-- **The blocks of a buffer.** In a run that holds at most `M` bytes and allocates only while
`read_block_` is `head_`, the buffer has at most `M / 4096 + 2` blocks. -/
theorem block_count_le [HeadMemory] {M : Nat} {ops : List BufOp} (hops : ∀ op ∈ ops, op.Streams)
    (hM : bufferMachine.Always (fun b => b.size ≤ M) ops) (hC : bufferMachine.Each Reuses ops) :
    bufferMachine.Always (fun b => b.blockCount ≤ M / kBlockSize + 2) ops := by
  have hbounded : bufferMachine.Always (Bounded M) ops :=
    Machine.alwaysFrom_of_each bounded_step hops bounded_new hM hC
  exact hbounded.mono fun b hb => hb.valid.blockCount_eq ▸ hb.count_le

/-- A full block and two bytes more, of which the first 4096 are read; what is left moves into
`head_`, and the next 4095 bytes run over into the second block again. -/
def compacted : List BufOp :=
  [.append (List.replicate 4096 65), .append [66, 67], .retrieve 4096,
    .append (List.replicate 4095 68)]

theorem block_count_le_compacted :
    bufferMachine.Always (fun b => b.blockCount ≤ 4098 / kBlockSize + 2) compacted := by
  apply block_count_le
  · intro op hop len
    simp only [compacted, List.mem_cons, List.not_mem_nil, or_false] at hop
    rcases hop with rfl | rfl | rfl | rfl <;> exact nofun
  · refine ⟨by decide, fun s hs => ?_⟩
    cases hs
    refine ⟨by decide +kernel, fun s hs => ?_⟩
    cases hs
    refine ⟨by decide +kernel, fun s hs => ?_⟩
    cases hs
    refine ⟨by decide +kernel, fun s hs => ?_⟩
    cases hs
    change Buffer.size _ ≤ 4098
    decide +kernel
  · refine ⟨.inr rfl, fun s hs => ?_⟩
    cases hs
    refine ⟨.inr (by decide +kernel), fun s hs => ?_⟩
    cases hs
    refine ⟨trivial, fun s hs => ?_⟩
    cases hs
    exact ⟨.inr (by decide +kernel), fun _ _ => trivial⟩

/-! ## Blocks that are never used again -/

/-- A block's worth of bytes comes in and is read, `n` times. -/
def drainCycles : Nat → List BufOp
  | 0 => []
  | n + 1 => .append (List.replicate kBlockSize 65) :: .retrieve kBlockSize :: drainCycles n

namespace Buffer

/-- Empty, with `n` blocks, the last of them full. -/
structure Spent (b : Buffer) (n : Nat) : Prop where
  valid : b.Valid
  size : b.size = 0
  length : b.blocks.length = n
  last : b.writeBlock + 1 = n
  full : b.wr.writable = 0

variable {b : Buffer} {n : Nat} {src : Bytes}

theorem spent_retrieve (h : b.Valid) (hlen : b.blocks.length = n) (hlast : b.writeBlock + 1 = n)
    (hfull : b.wr.writable = 0) (hsize : b.size = kBlockSize) :
    (b.retrieve kBlockSize).Spent n := by
  have hpos : kBlockSize ≠ 0 := by decide
  have hd := h.drained_spec (Nat.min_le_right kBlockSize b.size)
  have hw := sameWrite_drained h.write_lt (min kBlockSize b.size)
  have hnil : (b.drained (min kBlockSize b.size)).size = 0 := by
    rw [hd.1.size_eq, hd.2, List.length_drop, ← h.size_eq]
    omega
  have he : b.retrieve kBlockSize = b.drained (min kBlockSize b.size) := by
    rw [retrieve_eq, if_neg hpos, compact, if_neg]
    rintro ⟨-, hlt⟩
    omega
  rw [he]
  refine ⟨hd.1, hnil, hw.length.trans hlen, hw.block ▸ hlast, ?_⟩
  rw [Block.writable, hw.idx]
  exact hfull

theorem append_block (hempty : b.wr.Empty) (hsrc : src.length = kBlockSize) :
    b.append src = b.put src := by
  have hne : src ≠ [] := List.length_pos_iff.mp (by rw [hsrc]; decide)
  have hw : ¬ b.wr.writable = 0 := by rw [hempty.writable]; decide
  rw [Buffer.append, if_neg hne, if_neg hw]
  simp only [hempty.writable, ← hsrc, Nat.min_self, List.take_length, List.drop_length, append_nil]

theorem spent_of_empty (h : b.Valid) (hlen : b.blocks.length = n) (hlast : b.writeBlock + 1 = n)
    (hempty : b.wr.Empty) (hsize : b.size = 0) (hsrc : src.length = kBlockSize) :
    (b.put src).size = kBlockSize ∧ ((b.put src).retrieve kBlockSize).Spent n := by
  have hle : src.length ≤ b.wr.writable := Nat.le_of_eq (hsrc.trans hempty.writable.symm)
  have hsize' : (b.put src).size = kBlockSize := by
    rw [← hsrc, ← Nat.zero_add src.length, ← hsize]
    rfl
  refine ⟨hsize', spent_retrieve (h.put hle) ((length_put b src).trans hlen) hlast ?_ hsize'⟩
  rw [h.wr_put, Block.writable, Block.write, hempty.2, hsrc]
  exact Nat.sub_eq_zero_of_le (Nat.le_of_eq (Nat.zero_add _).symm)

theorem Spent.cycle (h : b.Spent n) (hsrc : src.length = kBlockSize) :
    (b.append src).size = kBlockSize ∧ ((b.append src).retrieve kBlockSize).Spent (n + 1) := by
  have hne : src ≠ [] := List.length_pos_iff.mp (by rw [hsrc]; decide)
  have hempty := h.valid.wr_nextWriteBlock
  have hlast := h.last
  have hlen : b.nextWriteBlock.blocks.length = n + 1 := by
    rw [length_nextWriteBlock h.valid.write_lt, h.length]
    omega
  have hnext : b.nextWriteBlock.writeBlock + 1 = n + 1 := congrArg (· + 1) hlast
  rw [Buffer.append, if_neg hne, if_pos h.full, append_block hempty hsrc]
  exact spent_of_empty h.valid.nextWriteBlock hlen hnext hempty h.size hsrc

theorem spent_new [HeadMemory] (hsrc : src.length = kBlockSize) :
    (new.append src).size = kBlockSize ∧ ((new.append src).retrieve kBlockSize).Spent 1 := by
  have hempty : new.wr.Empty := Block.empty_fresh
  rw [append_block hempty hsrc]
  exact spent_of_empty valid_new rfl rfl hempty rfl hsrc

theorem Spent.cycles [HeadMemory] : ∀ {k n : Nat} {b : Buffer}, b.Spent n →
    bufferMachine.AlwaysFrom (fun b => b.size ≤ kBlockSize) b (drainCycles k) ∧
      ∃ b', bufferMachine.runFrom b (drainCycles k) = some b' ∧ b'.Spent (n + k)
  | 0, _, b, h => ⟨Nat.le_trans (Nat.le_of_eq h.size) (Nat.zero_le _), b, rfl, h⟩
  | k + 1, n, b, h => by
    have hb : b.size ≤ kBlockSize :=
      Nat.le_trans (Nat.le_of_eq h.size) (Nat.zero_le _)
    obtain ⟨hsize, hspent⟩ := h.cycle (List.length_replicate (a := (65 : Byte)))
    obtain ⟨halways, b', hrun, hb'⟩ := hspent.cycles (k := k)
    refine ⟨⟨hb, fun s hs => ?_⟩, b', hrun, ?_⟩
    · cases hs
      refine ⟨Nat.le_of_eq hsize, fun s hs => ?_⟩
      cases hs
      exact halways
    · rwa [Nat.add_right_comm] at hb'

/-- A buffer that never holds more than one block's worth of bytes, after `k + 1` cycles. -/
theorem drainCycles_grow [HeadMemory] (k : Nat) :
    bufferMachine.Always (fun b => b.size ≤ kBlockSize) (drainCycles (k + 1)) ∧
      ∃ b, bufferMachine.run (drainCycles (k + 1)) = some b ∧ b.blockCount = k + 1 := by
  obtain ⟨hsize, hspent⟩ := spent_new (List.length_replicate (a := (65 : Byte)))
  obtain ⟨halways, b, hrun, hb⟩ := hspent.cycles (k := k)
  refine ⟨⟨Nat.zero_le _, fun s hs => ?_⟩, b, hrun, ?_⟩
  · cases hs
    refine ⟨Nat.le_of_eq hsize, fun s hs => ?_⟩
    cases hs
    exact halways
  · rw [hb.valid.blockCount_eq, hb.length, Nat.add_comm]

end Buffer

/-- Four cycles of 4096 bytes leave four blocks, and the bound for 4096 bytes is three. -/
theorem block_count_exceeded :
    bufferMachine.Always (fun b => b.size ≤ 4096) (drainCycles 4) ∧
      ∃ b, bufferMachine.run (drainCycles 4) = some b ∧ b.blockCount = 4 ∧
        ¬ b.blockCount ≤ 4096 / kBlockSize + 2 := by
  obtain ⟨halways, b, hrun, hcount⟩ := drainCycles_grow 3
  exact ⟨halways, b, hrun, hcount, by rw [hcount]; decide⟩

end Hound
