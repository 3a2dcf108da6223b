import Hound.Io.Buffer

/-!
# The invariant of the chain buffer

`Buffer.Valid` is the invariant the source never states: every block keeps
`read_idx <= write_idx <= 4096`, the write block is at or behind the read block
along `next`, the blocks after it are reset, and `size_` counts the readable
content. Blocks between the two may hold any amount, none included. Each
operation keeps `Valid`, and its effect on `content` is stated beside it.
-/

namespace Hound

/-! ## One block -/

namespace Block

structure Ok (k : Block) : Prop where
  data_len : k.data.length = kBlockSize
  read_le : k.readIdx ≤ k.writeIdx
  write_le : k.writeIdx ≤ kBlockSize

/-- The state `reset` leaves. -/
def Empty (k : Block) : Prop := k.readIdx = 0 ∧ k.writeIdx = 0

def write (k : Block) (src : Bytes) : Block :=
  { k with data := memcpy k.data k.writeIdx src, writeIdx := k.writeIdx + src.length }

def read (k : Block) (n : Nat) : Block := { k with readIdx := k.readIdx + n }

variable {k : Block}

theorem ok_fresh : fresh.Ok := ⟨List.length_replicate, Nat.le_refl _, Nat.zero_le _⟩

theorem empty_fresh : fresh.Empty := ⟨rfl, rfl⟩

theorem ok_head [HeadMemory] : { data := HeadMemory.page : Block }.Ok :=
  ⟨HeadMemory.length_page, Nat.le_refl _, Nat.zero_le _⟩

theorem empty_head [HeadMemory] : { data := HeadMemory.page : Block }.Empty := ⟨rfl, rfl⟩

theorem empty_reset (k : Block) : k.reset.Empty := ⟨rfl, rfl⟩

theorem Ok.reset (h : k.Ok) : k.reset.Ok := ⟨h.data_len, Nat.le_refl _, Nat.zero_le _⟩

theorem Empty.bytes (h : k.Empty) : k.bytes = [] := by
  simp [Block.bytes, Block.readable, h.2]

theorem Empty.writable (h : k.Empty) : k.writable = kBlockSize := by
  simp [Block.writable, h.2]

theorem Ok.bytes_length (h : k.Ok) : k.bytes.length = k.readable := by
  have h1 := h.data_len; have h2 := h.read_le; have h3 := h.write_le
  simp only [Block.bytes, Block.readable, List.length_take, List.length_drop]
  omega

theorem bytes_eq (k : Block) : k.bytes = (k.data.take k.writeIdx).drop k.readIdx := by
  rw [Block.bytes, Block.readable, List.drop_take]

theorem Ok.bytes_eq_nil_iff (h : k.Ok) : k.bytes = [] ↔ k.readIdx = k.writeIdx := by
  rw [← List.length_eq_zero_iff, h.bytes_length, Block.readable]
  have := h.read_le
  omega

theorem Ok.write (h : k.Ok) {src : Bytes} (hs : src.length ≤ k.writable) : (k.write src).Ok := by
  have h1 := h.data_len; have h2 := h.read_le; have h3 := h.write_le
  unfold Block.writable at hs
  refine ⟨?_, by simp only [Block.write]; omega, by simp only [Block.write]; omega⟩
  have hfits : k.writeIdx + src.length ≤ k.data.length := by omega
  simpa [Block.write, length_memcpy hfits] using h1

theorem Ok.bytes_write (h : k.Ok) (src : Bytes) : (k.write src).bytes = k.bytes ++ src := by
  have h1 := h.data_len; have h2 := h.read_le; have h3 := h.write_le
  rw [bytes_eq, bytes_eq]
  simp only [Block.write]
  rw [take_memcpy (by omega),
    List.drop_append_of_le_length (by simp only [List.length_take]; omega)]

theorem Ok.read (h : k.Ok) {n : Nat} (hn : n ≤ k.readable) : (k.read n).Ok := by
  have h2 := h.read_le
  unfold Block.readable at hn
  exact ⟨h.data_len, by simp only [Block.read]; omega, h.write_le⟩

theorem bytes_read (k : Block) (n : Nat) : (k.read n).bytes = k.bytes.drop n := by
  rw [bytes_eq, bytes_eq, List.drop_drop]; rfl

end Block

/-! ## The chain -/

namespace Buffer

structure Valid (b : Buffer) : Prop where
  ok : ∀ k ∈ b.blocks, k.Ok
  read_le : b.readBlock ≤ b.writeBlock
  write_lt : b.writeBlock < b.blocks.length
  behind : ∀ k ∈ b.blocks.drop (b.writeBlock + 1), k.Empty
  size_eq : b.size = b.content.length

theorem valid_new [HeadMemory] : Valid new where
  ok := by simp [new, Block.ok_head]
  read_le := Nat.le_refl _
  write_lt := by simp [new]
  behind := by simp [new]
  size_eq := by simp [new, content, Block.empty_head.bytes]

theorem content_new [HeadMemory] : new.content = [] := by
  simp [new, content, Block.empty_head.bytes]

variable {b : Buffer}

theorem blockAt_eq {i : Nat} (h : i < b.blocks.length) : b.blockAt i = b.blocks[i] :=
  List.getD_eq_getElem _ _ h

theorem blockAt_of_getElem? {i : Nat} {k : Block} (h : b.blocks[i]? = some k) :
    b.blockAt i = k := by
  rw [blockAt, List.getD_eq_getElem?_getD, h]
  rfl

theorem Valid.read_lt (h : b.Valid) : b.readBlock < b.blocks.length :=
  Nat.lt_of_le_of_lt h.read_le h.write_lt

theorem Valid.ok_at (h : b.Valid) {i : Nat} (hi : i < b.blocks.length) : (b.blockAt i).Ok := by
  rw [blockAt_eq hi]; exact h.ok _ (List.getElem_mem hi)

theorem Valid.ok_rd (h : b.Valid) : b.rd.Ok := h.ok_at h.read_lt

/-- The content is what the read block holds, then what the blocks after it hold. -/
theorem Valid.content_eq (h : b.Valid) :
    b.content = b.rd.bytes ++ (b.blocks.drop (b.readBlock + 1)).flatMap Block.bytes := by
  rw [content, drop_eq_blockAt_cons h.read_lt, List.flatMap_cons]; rfl

/-- When the read block is the write block, it holds all of the content. -/
theorem Valid.content_eq_rd (h : b.Valid) (he : b.readBlock = b.writeBlock) :
    b.content = b.rd.bytes := by
  have : (b.blocks.drop (b.readBlock + 1)).flatMap Block.bytes = [] :=
    List.flatMap_eq_nil_iff.mpr fun k hk => (h.behind k (he ▸ hk)).bytes
  rw [h.content_eq, this, List.append_nil]

theorem Valid.rd_bytes_length (h : b.Valid) : b.rd.bytes.length = b.rd.readable :=
  h.ok_rd.bytes_length

theorem Valid.size_eq_zero_iff (h : b.Valid) : b.size = 0 ↔ b.content = [] := by
  rw [h.size_eq, List.length_eq_zero_iff]

/-! ## Moving the write block -/

theorem blocks_nextWriteBlock (b : Buffer) :
    ∃ l : List Block, b.nextWriteBlock.blocks = b.blocks ++ l ∧ ∀ k ∈ l, k = .fresh := by
  unfold nextWriteBlock
  split
  · exact ⟨[], (List.append_nil _).symm, by simp⟩
  · exact ⟨[.fresh], rfl, by simp⟩

theorem Valid.content_nextWriteBlock (h : b.Valid) : b.nextWriteBlock.content = b.content := by
  obtain ⟨l, hl, hf⟩ := blocks_nextWriteBlock b
  have hnil : l.flatMap Block.bytes = [] :=
    List.flatMap_eq_nil_iff.mpr fun k hk => by rw [hf k hk]; exact Block.empty_fresh.bytes
  have hr : b.nextWriteBlock.readBlock = b.readBlock := rfl
  have := h.read_lt
  rw [content, hr, hl, List.drop_append_of_le_length (by omega), List.flatMap_append, hnil,
    List.append_nil, content]

theorem Valid.nextWriteBlock (h : b.Valid) : b.nextWriteBlock.Valid where
  ok := by
    obtain ⟨l, hl, hf⟩ := blocks_nextWriteBlock b
    rw [hl]
    intro k hk
    rcases List.mem_append.mp hk with hk | hk
    · exact h.ok k hk
    · rw [hf k hk]; exact Block.ok_fresh
  read_le := Nat.le_succ_of_le h.read_le
  write_lt := by
    have := h.write_lt
    simp only [Buffer.nextWriteBlock]
    split <;> simp <;> omega
  behind := by
    obtain ⟨l, hl, hf⟩ := blocks_nextWriteBlock b
    have hw : b.nextWriteBlock.writeBlock = b.writeBlock + 1 := rfl
    rw [hl, hw]
    intro k hk
    rw [List.drop_append] at hk
    rcases List.mem_append.mp hk with hk | hk
    · apply h.behind k
      rw [← List.drop_drop] at hk
      exact List.mem_of_mem_drop hk
    · rw [hf k (List.mem_of_mem_drop hk)]; exact Block.empty_fresh
  size_eq := by rw [h.content_nextWriteBlock]; exact h.size_eq

theorem Valid.rd_nextWriteBlock (h : b.Valid) : b.nextWriteBlock.rd = b.rd := by
  obtain ⟨l, hl, -⟩ := blocks_nextWriteBlock b
  have hr : b.nextWriteBlock.readBlock = b.readBlock := rfl
  simp only [rd, blockAt, hl, hr, List.getD_append _ _ _ _ h.read_lt]

theorem Valid.wr_nextWriteBlock (h : b.Valid) : b.nextWriteBlock.wr.Empty := by
  have hn := h.nextWriteBlock
  have hlt := hn.write_lt
  have hw : b.nextWriteBlock.writeBlock = b.writeBlock + 1 := rfl
  rw [wr, blockAt_eq hlt]
  by_cases hin : b.writeBlock + 1 < b.blocks.length
  · apply h.behind
    have hb : b.nextWriteBlock.blocks = b.blocks := by simp [Buffer.nextWriteBlock, hin]
    simp only [hb, hw]
    rw [List.drop_eq_getElem_cons hin]
    exact List.mem_cons_self
  · have hb : b.nextWriteBlock.blocks = b.blocks ++ [.fresh] := by simp [Buffer.nextWriteBlock, hin]
    have := h.write_lt
    simp only [hb, hw]
    rw [List.getElem_append_right (by omega)]
    simp [Block.empty_fresh]

/-! ## Writing into the write block -/

theorem blockAt_modify (b : Buffer) (i j : Nat) (f : Block → Block) (hi : i < b.blocks.length) :
    { b with blocks := b.blocks.modify j f }.blockAt i =
      if i = j then f (b.blockAt i) else b.blockAt i := by
  rw [blockAt_eq (by simpa using hi), blockAt_eq hi, List.getElem_modify]
  simp [eq_comm]

theorem put_eq (b : Buffer) (src : Bytes) :
    b.put src = { b with
      blocks := b.blocks.modify b.writeBlock (·.write src), size := b.size + src.length } := rfl

theorem Valid.content_put (h : b.Valid) (src : Bytes) : (b.put src).content = b.content ++ src := by
  have h1 := h.read_le; have h2 := h.write_lt
  simp only [content, put_eq]
  rw [List.drop_modify_of_ge _ _ _ _ h1]
  refine Lib.flatMap_modify_append (by rw [List.length_drop]; omega) (fun k hk => ?_) ?_
  · rw [List.drop_drop, show b.readBlock + (b.writeBlock - b.readBlock + 1) = b.writeBlock + 1 by
      omega] at hk
    exact (h.behind k hk).bytes
  · rw [List.getElem_drop]
    exact (h.ok _ (List.getElem_mem _)).bytes_write src

theorem Valid.put (h : b.Valid) {src : Bytes} (hs : src.length ≤ b.wr.writable) :
    (b.put src).Valid where
  ok := by
    refine Lib.forall_mem_modify h.ok fun k hk hok => hok.write ?_
    rwa [wr, blockAt_of_getElem? hk] at hs
  read_le := h.read_le
  write_lt := by simpa [put_eq] using h.write_lt
  behind := by
    intro k hk
    rw [put_eq] at hk
    simp only [List.drop_modify_of_lt _ _ _ _ (Nat.lt_succ_self _)] at hk
    exact h.behind k hk
  size_eq := by
    rw [h.content_put, List.length_append, ← h.size_eq]; rfl

theorem Valid.rd_put (h : b.Valid) (src : Bytes) :
    (b.put src).rd = if b.readBlock = b.writeBlock then b.rd.write src else b.rd :=
  blockAt_modify b b.readBlock b.writeBlock (·.write src) h.read_lt

theorem Valid.wr_put (h : b.Valid) (src : Bytes) : (b.put src).wr = b.wr.write src :=
  (blockAt_modify b b.writeBlock b.writeBlock (·.write src) h.write_lt).trans (if_pos rfl)

/-! ## `append` -/

theorem append_nil (b : Buffer) : b.append [] = b := by rw [append]; simp

theorem length_toCopy_le (b : Buffer) (src : Bytes) :
    (src.take (min src.length b.wr.writable)).length ≤ b.wr.writable := by
  rw [List.length_take]
  omega

theorem Valid.append_spec (h : b.Valid) (src : Bytes) :
    (b.append src).Valid ∧ (b.append src).content = b.content ++ src := by
  fun_induction append b src with
  | case1 b => exact ⟨h, (List.append_nil _).symm⟩
  | case2 b src _ _ ih =>
    obtain ⟨hv, hc⟩ := ih h.nextWriteBlock
    exact ⟨hv, by rw [hc, h.content_nextWriteBlock]⟩
  | case3 b src _ _ toCopy ih =>
    obtain ⟨hv, hc⟩ := ih (h.put (length_toCopy_le b src))
    exact ⟨hv, by rw [hc, h.content_put, List.append_assoc, List.take_append_drop]⟩

theorem Valid.append (h : b.Valid) (src : Bytes) : (b.append src).Valid := (h.append_spec src).1

theorem Valid.content_append (h : b.Valid) (src : Bytes) :
    (b.append src).content = b.content ++ src := (h.append_spec src).2

/-! ## `begin_write` and `has_written` -/

/-- The state `begin_write` leaves. -/
abbrev begun (b : Buffer) : Buffer := b.beginWrite.1

theorem begun_eq (b : Buffer) :
    b.begun = if b.wr.writable = 0 then b.nextWriteBlock else b := rfl

theorem Valid.begun (h : b.Valid) : b.begun.Valid := by
  rw [begun_eq]; split
  · exact h.nextWriteBlock
  · exact h

theorem Valid.content_begun (h : b.Valid) : b.begun.content = b.content := by
  rw [begun_eq]; split
  · exact h.content_nextWriteBlock
  · rfl

theorem Valid.rd_begun (h : b.Valid) : b.begun.rd = b.rd := by
  rw [begun_eq]; split
  · exact h.rd_nextWriteBlock
  · rfl

theorem readBlock_begun (b : Buffer) : b.begun.readBlock = b.readBlock := by
  rw [begun_eq]; split <;> rfl

theorem Valid.writable_begun_pos (h : b.Valid) : 0 < b.begun.wr.writable := by
  rw [begun_eq]; split
  · rw [h.wr_nextWriteBlock.writable]; decide
  · omega

/-- `begin_write`, then storing `src` at the returned pointer, then `has_written(|src|)`. -/
def writeVia (b : Buffer) (src : Bytes) : Buffer :=
  (b.begun.storeAt b.beginWrite.2.2 src).hasWritten src.length

/-- The writable count `begin_write` reports. -/
def room (b : Buffer) : Nat := b.beginWrite.2.1

theorem room_eq (b : Buffer) : b.room = b.begun.wr.writable := rfl

theorem storeAt_hasWritten (hlt : b.writeBlock < b.blocks.length) {src : Bytes}
    (hs : src.length ≤ b.wr.writable) :
    (b.storeAt ⟨b.writeBlock, b.wr.writeIdx⟩ src).hasWritten src.length = b.put src := by
  have hwr : (b.storeAt ⟨b.writeBlock, b.wr.writeIdx⟩ src).wr.writable = b.wr.writable := by
    unfold wr storeAt
    rw [blockAt_modify _ _ _ _ hlt, if_pos rfl]
    rfl
  unfold hasWritten
  rw [hwr, if_neg (by omega), put_eq]
  simp only [storeAt, Buffer.mk.injEq, and_true]
  rw [List.modify_modify_eq]
  refine Lib.modify_congr fun k hk => ?_
  rw [wr, blockAt_of_getElem? hk]
  rfl

theorem Valid.writeVia_eq (h : b.Valid) {src : Bytes} (hs : src.length ≤ b.room) :
    b.writeVia src = b.begun.put src :=
  storeAt_hasWritten h.begun.write_lt hs

theorem Valid.writeVia (h : b.Valid) {src : Bytes} (hs : src.length ≤ b.room) :
    (b.writeVia src).Valid := by
  rw [h.writeVia_eq hs]; exact h.begun.put hs

theorem Valid.content_writeVia (h : b.Valid) {src : Bytes} (hs : src.length ≤ b.room) :
    (b.writeVia src).content = b.content ++ src := by
  rw [h.writeVia_eq hs, h.begun.content_put, h.content_begun]

/-! ## `ensure_writable` -/

theorem Valid.ensureWritable (h : b.Valid) (len : Nat) : (b.ensureWritable len).Valid := by
  unfold Buffer.ensureWritable; split
  · exact h
  · exact h.nextWriteBlock

theorem Valid.content_ensureWritable (h : b.Valid) (len : Nat) :
    (b.ensureWritable len).content = b.content := by
  unfold Buffer.ensureWritable; split
  · rfl
  · exact h.content_nextWriteBlock

theorem Valid.rd_ensureWritable (h : b.Valid) (len : Nat) : (b.ensureWritable len).rd = b.rd := by
  unfold Buffer.ensureWritable; split
  · rfl
  · exact h.rd_nextWriteBlock

end Buffer

end Hound
