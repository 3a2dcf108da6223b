import Hound.Io.BufferQueue

/-!
# The promise of `ensure_writable`

`rawMachine` adds to the calls of `bufferMachine` what a caller may do by itself: store bytes
in a block through a pointer of `begin_write`, and commit any number of bytes with
`has_written`, which then reads whatever the block holds. The buffer stays valid, and
`ensure_writable` finds or makes room in one block: it keeps its promise up to `kBlockSize`
bytes.
-/

namespace Hound

open Lib

inductive RawOp where
  | call (op : BufOp)
  | store (p : Buffer.WritePtr) (src : Bytes)
  | hasWritten (len : Nat)

/-- A caller stores inside the array of a block, and commits what it likes. -/
def rawMachine [HeadMemory] : Machine Buffer RawOp where
  init := .new
  step b
    | .call op => bufferMachine.step b op
    | .store p src => if p.offset + src.length ≤ kBlockSize then some (b.storeAt p src) else none
    | .hasWritten len => some (b.hasWritten len)

theorem memcpy_self (dst : Bytes) (off n : Nat) : memcpy dst off ((dst.drop off).take n) = dst := by
  have hdrop : dst.drop (off + ((dst.drop off).take n).length) = (dst.drop off).drop n := by
    rw [List.drop_drop, List.length_take, List.length_drop]
    rcases Nat.le_total n (dst.length - off) with h | h
    · rw [Nat.min_eq_left h]
    · rw [Nat.min_eq_right h, List.drop_eq_nil_of_le (by omega), List.drop_eq_nil_of_le (by omega)]
  rw [memcpy, hdrop, List.append_assoc, List.take_append_drop, List.take_append_drop]

namespace Buffer

variable {b : Buffer}

/-! ## Storing and committing -/

theorem length_content_congr {b' : Buffer} (h : ∀ k ∈ b.blocks, k.Ok) (h' : ∀ k ∈ b'.blocks, k.Ok)
    (hread : b'.readBlock = b.readBlock)
    (hsame : b'.blocks.map Block.readable = b.blocks.map Block.readable) :
    b'.content.length = b.content.length := by
  have hlen : ∀ {l : List Block} (n : Nat), (∀ k ∈ l, k.Ok) →
      (l.drop n).map (fun k => k.bytes.length) = (l.map Block.readable).drop n := by
    intro l n hok
    rw [← List.map_drop]
    exact List.map_congr_left fun k hk => (hok k (List.mem_of_mem_drop hk)).bytes_length
  rw [content, content, List.length_flatMap, List.length_flatMap, hlen _ h, hlen _ h', hread, hsame]

theorem Valid.storeAt (h : b.Valid) {p : WritePtr} {src : Bytes}
    (hp : p.offset + src.length ≤ kBlockSize) : (b.storeAt p src).Valid := by
  have hok : ∀ k ∈ (b.storeAt p src).blocks, k.Ok := by
    refine forall_mem_modify h.ok fun k _ hk => ⟨?_, hk.read_le, hk.write_le⟩
    rw [length_memcpy (by rw [hk.data_len]; exact hp), hk.data_len]
  refine ⟨hok, h.read_le, ?_, fun k hk => ?_, ?_⟩
  · show b.writeBlock < (b.blocks.modify _ _).length
    rw [List.length_modify]
    exact h.write_lt
  · obtain ⟨k', hk', he⟩ := mem_drop_modify hk
    have hempty := h.behind k' hk'
    rcases he with rfl | rfl
    · exact hempty
    · exact hempty
  · have hsame : (b.storeAt p src).blocks.map Block.readable = b.blocks.map Block.readable := by
      refine map_modify_of_forall (fun k => ?_) _ _
      rfl
    show b.size = _
    rw [h.size_eq, length_content_congr h.ok hok rfl hsame]

theorem Valid.hasWritten_eq (h : b.Valid) (len : Nat) :
    b.hasWritten len =
      b.put ((b.wr.data.drop b.wr.writeIdx).take (min len b.wr.writable)) := by
  have hok := h.ok_at h.write_lt
  have hlen : ((b.wr.data.drop b.wr.writeIdx).take (min len b.wr.writable)).length =
      min len b.wr.writable := by
    have h1 := hok.data_len
    rw [List.length_take, List.length_drop]
    unfold Block.writable wr
    omega
  have hmin : (if b.wr.writable < len then b.wr.writable else len) = min len b.wr.writable := by
    split <;> omega
  rw [put_eq, Buffer.hasWritten]
  simp only [hmin, hlen, Buffer.mk.injEq, and_true]
  refine modify_congr fun k hk => ?_
  rw [Block.write, hlen, wr, blockAt_of_getElem? hk, memcpy_self]

theorem Valid.hasWritten (h : b.Valid) (len : Nat) : (b.hasWritten len).Valid := by
  rw [h.hasWritten_eq]
  refine h.put ?_
  rw [List.length_take]
  omega

theorem kept_valid_raw [HeadMemory] : rawMachine.Kept Valid := by
  intro b b' op h hs
  cases op with
  | call op => exact kept_valid h hs
  | store p src =>
    obtain ⟨hp, hb'⟩ := Option.ite_none_right_eq_some.mp hs
    cases hb'
    exact h.storeAt hp
  | hasWritten len =>
    cases hs
    exact h.hasWritten len

/-! ## Room in one block -/

/-- What `ensure_writable(len)` is for: `begin_write` has room for `len` bytes, nothing that
can be read has changed, and bytes stored there are appended. -/
def Promise (b : Buffer) (len : Nat) : Prop :=
  len ≤ (b.ensureWritable len).room ∧
    (b.ensureWritable len).begun.content = b.content ∧
    (b.ensureWritable len).begun.size = b.size ∧
    ∀ src : Bytes, src.length ≤ len →
      ((b.ensureWritable len).writeVia src).content = b.content ++ src

theorem room_le (b : Buffer) : b.room ≤ kBlockSize := by
  rw [room_eq]
  exact Nat.sub_le _ _

/-- The write block has room for `len` bytes, or the next one is empty. -/
theorem Valid.le_writable_ensureWritable (h : b.Valid) {len : Nat} (hlen : len ≤ kBlockSize) :
    len ≤ (b.ensureWritable len).wr.writable := by
  unfold Buffer.ensureWritable
  split
  · next hfits => exact hfits
  · rw [h.wr_nextWriteBlock.writable]
    exact hlen

/-- `begin_write` offers all that the write block has left, or a whole block. -/
theorem writable_le_room (b : Buffer) : b.wr.writable ≤ b.room := by
  rw [room_eq, begun_eq]
  split
  · next hfull =>
    rw [hfull]
    exact Nat.zero_le _
  · exact Nat.le_refl _

theorem Valid.promise (h : b.Valid) {len : Nat} (hlen : len ≤ kBlockSize) : b.Promise len := by
  have hv := h.ensureWritable len
  have hroom : len ≤ (b.ensureWritable len).room :=
    Nat.le_trans (h.le_writable_ensureWritable hlen) (writable_le_room _)
  have hcontent : (b.ensureWritable len).begun.content = b.content := by
    rw [hv.content_begun, h.content_ensureWritable]
  refine ⟨hroom, hcontent, ?_, fun src hsrc => ?_⟩
  · rw [hv.begun.size_eq, hcontent, h.size_eq]
  · rw [hv.content_writeVia (Nat.le_trans hsrc hroom), h.content_ensureWritable]

end Buffer

/-- **`ensure_writable` keeps its promise up to one block.** After any calls, it does so for
`len` bytes exactly if a block holds that many. -/
theorem ensure_writable_iff [HeadMemory] {ops : List RawOp} {b : Buffer}
    (h : rawMachine.run ops = some b)
    (len : Nat) : b.Promise len ↔ len ≤ kBlockSize := by
  have hv : b.Valid := Machine.invariant Buffer.valid_new Buffer.kept_valid_raw h
  constructor
  · rintro ⟨hroom, -⟩
    exact Nat.le_trans hroom (Buffer.room_le _)
  · exact hv.promise

/-- After a stray store and a stray commit. -/
theorem ensure_writable_iff_stray :
    ∃ b, rawMachine.run [.store ⟨0, 4095⟩ [65], .hasWritten 4000, .call (.ensureWritable 97)] =
      some b ∧ b.Promise 4096 := by
  obtain ⟨b, hb⟩ := Option.isSome_iff_exists.mp (show (rawMachine.run
    [.store ⟨0, 4095⟩ [65], .hasWritten 4000, .call (.ensureWritable 97)]).isSome from rfl)
  exact ⟨b, hb, (ensure_writable_iff hb 4096).mpr (by decide)⟩

/-- A new buffer, asked for one byte more than a block. -/
theorem ensure_writable_short :
    rawMachine.run [] = some .new ∧ ¬ Buffer.new.Promise 4097 ∧
      (Buffer.new.ensureWritable 4097).room = 4096 := by
  have hroom : (Buffer.new.ensureWritable 4097).room = 4096 := rfl
  refine ⟨rfl, fun ⟨hle, _⟩ => ?_, hroom⟩
  rw [hroom] at hle
  omega

end Hound
