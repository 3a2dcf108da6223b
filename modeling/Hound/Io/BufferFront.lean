import Hound.Io.BufferQueue

/-!
# What the front of the buffer shows

`peek`, `peek_size` and `peek_byte` look at the read block alone. `Visible` says
that they show the front of a non-empty buffer. It fails after a block has been
filled to its last byte and drained to its last byte: the next write moves on to a
new block, and only `retrieve` moves the read block. `Visible` holds throughout a
run exactly when every call that adds bytes to an empty buffer finds room in the
read block (`FrontRoom`).
-/

namespace Hound

open Lib

theorem Block.getElem?_readIdx {k : Block} {c : Byte} {t : Bytes}
    (h : k.bytes = c :: t) : k.data[k.readIdx]? = some c := by
  have h0 : k.bytes[0]? = some c := by rw [h]; rfl
  rw [Block.bytes, List.getElem?_take] at h0
  split at h0
  · simpa using h0
  · cases h0

namespace Buffer

/-- Data in the buffer shows at its front. -/
def Visible (b : Buffer) : Prop :=
  0 < b.size → 0 < b.peekSize ∧ b.peek ≠ [] ∧ b.peek <+: b.content ∧
    ∃ c, b.content.head? = some c ∧ b.peekByte = some (c.toNat : Int)

variable {b : Buffer}

theorem Valid.visible_iff (h : b.Valid) : b.Visible ↔ (0 < b.size → b.rd.bytes ≠ []) := by
  refine forall_congr' fun hpos => ?_
  have h0 : b.size ≠ 0 := by omega
  simp only [peekSize, peek, peekByte, if_neg h0]
  refine ⟨fun hx => hx.2.1, fun hne => ?_⟩
  obtain ⟨c, t, hct⟩ := List.exists_cons_of_ne_nil hne
  refine ⟨?_, hne, ⟨_, h.content_eq.symm⟩, c, ?_, ?_⟩
  · rw [← h.rd_bytes_length, hct]; exact Nat.succ_pos _
  · rw [h.content_eq, hct]; rfl
  · rw [Block.getElem?_readIdx hct]; rfl

theorem Valid.size_pos_of_rd (h : b.Valid) (hr : b.rd.bytes ≠ []) : 0 < b.size := by
  rw [h.size_eq, List.length_pos_iff, h.content_eq]
  exact fun h0 => hr (List.append_eq_nil_iff.mp h0).1

/-- `append` fills the read block up when that is the write block, and leaves it
alone otherwise. -/
theorem Valid.rd_append (h : b.Valid) (src : Bytes) :
    (b.append src).rd.bytes =
      b.rd.bytes ++ if b.readBlock = b.writeBlock then src.take b.wr.writable else [] := by
  fun_induction Buffer.append b src with
  | case1 b => simp
  | case2 b src _ hfull ih =>
    have hne : b.nextWriteBlock.readBlock ≠ b.nextWriteBlock.writeBlock :=
      Nat.ne_of_lt (Nat.lt_succ_of_le h.read_le)
    rw [ih h.nextWriteBlock, if_neg hne, h.rd_nextWriteBlock, hfull]
    simp
  | case3 b src _ _ toCopy ih =>
    have hr : (b.put (src.take toCopy)).readBlock = b.readBlock := rfl
    have hw : (b.put (src.take toCopy)).writeBlock = b.writeBlock := rfl
    rw [ih (h.put (length_toCopy_le b src)), h.rd_put, hr, hw]
    by_cases he : b.readBlock = b.writeBlock
    · simp only [if_pos he]
      have hroom : (b.put (src.take toCopy)).wr.writable = b.wr.writable - toCopy := by
        rw [h.wr_put]
        simp only [Block.writable, Block.write, List.length_take, toCopy]
        omega
      rw [h.ok_rd.bytes_write, hroom, List.append_assoc, ← List.take_add,
        show toCopy + (b.wr.writable - toCopy) = b.wr.writable by simp only [toCopy]; omega]
    · simp only [if_neg he]

/-- What the read block holds when everything is moved back into the reset chain. -/
theorem Valid.rd_refill (h : b.Valid) :
    (b.retrieveAll.append (b.readN b.size)).rd.bytes = b.content.take kBlockSize := by
  have hroom : b.retrieveAll.wr.writable = kBlockSize := by
    apply Block.Empty.writable
    rw [wr, blockAt_eq h.retrieveAll.write_lt]
    simp only [Buffer.retrieveAll, List.getElem_map]
    exact Block.empty_reset _
  have hnil : b.retrieveAll.rd.bytes = [] := by
    have hc := h.retrieveAll.content_eq
    rw [content_retrieveAll] at hc
    exact (List.append_eq_nil_iff.mp hc.symm).1
  rw [h.retrieveAll.rd_append, hnil, hroom, h.readN_eq, if_pos (Nat.le_refl _),
    if_pos (show b.retrieveAll.readBlock = b.retrieveAll.writeBlock from rfl), h.size_eq,
    List.take_length, List.nil_append]

theorem Valid.rd_writeVia (h : b.Valid) {src : Bytes} (hs : src.length ≤ b.room) :
    (b.writeVia src).rd.bytes =
      b.rd.bytes ++ if b.readBlock = b.writeBlock ∧ 0 < b.wr.writable then src else [] := by
  rw [h.writeVia_eq hs, h.begun.rd_put, readBlock_begun]
  by_cases hfull : b.wr.writable = 0
  · have hw : b.begun.writeBlock = b.writeBlock + 1 := by rw [begun_eq, if_pos hfull]; rfl
    have := h.read_le
    rw [hw, if_neg (by omega), if_neg (by omega), h.rd_begun, List.append_nil]
  · have hw : b.begun = b := by rw [begun_eq, if_neg hfull]
    rw [hw]
    by_cases he : b.readBlock = b.writeBlock
    · rw [if_pos he, if_pos ⟨he, by omega⟩, h.ok_rd.bytes_write]
    · rw [if_neg he, if_neg (fun hc => he hc.1), List.append_nil]

theorem Valid.visible_compact (h : b.Valid)
    (hf : b.readBlock = 0 → 0 < b.size → b.rd.bytes ≠ []) : b.compact.Visible := by
  have hv := h.compact_spec.1
  rw [hv.visible_iff]
  unfold compact at hv ⊢
  split
  · next hc =>
    intro _
    have hne : b.content ≠ [] := by rw [← List.length_pos_iff, ← h.size_eq]; exact hc.2
    rw [h.rd_refill, Ne, List.take_eq_nil_iff, not_or]
    exact ⟨by decide, hne⟩
  · next hc =>
    intro hpos
    exact hf (by omega) hpos

theorem Valid.drained_front (h : b.Valid) {len : Nat} (hlen : 0 < len)
    (h0 : (b.drained len).readBlock = 0)
    (hne : (b.drained len).readBlock ≠ (b.drained len).writeBlock) :
    (b.drained len).rd.bytes ≠ [] := by
  have hend := (retrieveLoop_spec (n := len) h h.fuel_ok).2.2.2
  have hfront := retrieveLoop_front (n := len) h h.fuel_ok hlen
  unfold drained at h0 hne ⊢
  simp only at h0 hne ⊢
  split
  · next hpos =>
    rw [if_pos hpos] at hne
    exact absurd (hend.resolve_left (by omega)) hne
  · next hpos =>
    rw [if_neg hpos] at h0 hne
    by_cases he : b.readBlock = b.writeBlock
    · rw [retrieveLoop_same he] at hne
      exact absurd he hne
    · exact (hfront he).resolve_left (by omega)

/-- `retrieve` of at least one byte always leaves the front visible. -/
theorem Valid.visible_retrieve (h : b.Valid) {len : Nat} (hlen : 0 < len) :
    (b.retrieve len).Visible := by
  rw [retrieve_eq, if_neg (by omega)]
  obtain ⟨hv, hc⟩ := h.drained_spec (Nat.min_le_right len b.size)
  refine hv.visible_compact fun h0 hpos => ?_
  rcases Nat.eq_zero_or_pos b.size with hz | hsize
  · exfalso
    have : (b.drained (min len b.size)).content = [] := by
      rw [hc, (h.size_eq_zero_iff).mp hz, List.drop_nil]
    rw [hv.size_eq, this] at hpos
    exact absurd hpos (by simp)
  · -- with the read block still at `head_`, either it is the write block too and holds
    -- everything, or the loop stopped before draining it
    by_cases he : (b.drained (min len b.size)).readBlock = (b.drained (min len b.size)).writeBlock
    · rw [← hv.content_eq_rd he, ← List.length_pos_iff, ← hv.size_eq]
      exact hpos
    · exact h.drained_front (by omega) h0 he

end Buffer

/-- A call that adds bytes finds the buffer non-empty, or the read block is the
write block and has room. -/
def FrontRoom (b : Buffer) : BufOp → Prop
  | .append src | .write src =>
    src ≠ [] → 0 < b.size ∨ (b.readBlock = b.writeBlock ∧ 0 < b.wr.writable)
  | _ => True

open Buffer

/-- Adding `src` to a visible buffer, when `src` or nothing of it reaches the read block. -/
theorem visible_grow {b b' : Buffer} {src : Bytes} (hv : b.Valid) (hv' : b'.Valid)
    (hvis : b.Visible) (hc : b'.content = b.content ++ src)
    (hrd : b'.rd.bytes ≠ [] ↔ b.rd.bytes ≠ [] ∨
      (src ≠ [] ∧ b.readBlock = b.writeBlock ∧ 0 < b.wr.writable)) :
    b'.Visible ↔ (src ≠ [] → 0 < b.size ∨ (b.readBlock = b.writeBlock ∧ 0 < b.wr.writable)) := by
  rw [hv.visible_iff] at hvis
  rw [hv'.visible_iff, hrd]
  have hsize : b'.size = b.size + src.length := by
    rw [hv'.size_eq, hc, List.length_append, hv.size_eq]
  constructor
  · intro h hne
    have : 0 < b'.size := by have := List.length_pos_iff.mpr hne; omega
    rcases h this with h1 | ⟨-, h1⟩
    · exact .inl (hv.size_pos_of_rd h1)
    · exact .inr h1
  · intro h hpos
    by_cases hne : src = []
    · subst hne
      rw [List.length_nil] at hsize
      exact .inl (hvis (by omega))
    · rcases h hne with h1 | h1
      · exact .inl (hvis h1)
      · exact .inr ⟨hne, h1⟩

theorem visible_step [HeadMemory] {b b' : Buffer} {op : BufOp} (hv : b.Valid) (hvis : b.Visible)
    (hs : bufferMachine.step b op = some b') : b'.Visible ↔ FrontRoom b op := by
  have hv' : b'.Valid := kept_valid hv hs
  -- a call that adds no bytes and leaves the read block alone
  have hsame (hc : b'.content = b.content) (hrd : b'.rd = b.rd) : b'.Visible ↔ True := by
    rw [iff_true, hv'.visible_iff, hrd, hv'.size_eq, hc, ← hv.size_eq]
    exact hv.visible_iff.mp hvis
  cases op with
  | append src =>
    cases hs
    apply visible_grow hv hv' hvis (hv.content_append src)
    rw [hv.rd_append]
    by_cases he : b.readBlock = b.writeBlock
    · simp only [if_pos he, ne_eq, List.append_eq_nil_iff, List.take_eq_nil_iff, not_and_or, not_or]
      apply or_congr_right
      exact ⟨fun h => ⟨h.2, he, Nat.pos_of_ne_zero h.1⟩, fun h => ⟨Nat.ne_of_gt h.2.2, h.1⟩⟩
    · simp [he]
  | ensureWritable len =>
    cases hs
    exact hsame (hv.content_ensureWritable len) (hv.rd_ensureWritable len)
  | beginWrite => cases hs; exact hsame hv.content_begun hv.rd_begun
  | write src =>
    simp only [bufferMachine, Option.ite_none_right_eq_some, Option.some.injEq] at hs
    obtain ⟨hle, rfl⟩ := hs
    apply visible_grow hv hv' hvis (hv.content_writeVia hle)
    rw [hv.rd_writeVia hle]
    split
    · next hc => rw [ne_eq, List.append_eq_nil_iff, not_and_or, and_iff_left hc]
    · next hc =>
      rw [List.append_nil]
      exact (or_iff_left fun h => hc h.2).symm
  | retrieve len =>
    cases hs
    simp only [FrontRoom, iff_true]
    rcases Nat.eq_zero_or_pos len with rfl | hpos
    · rwa [retrieve_eq, if_pos rfl]
    · exact hv.visible_retrieve hpos
  | retrieveAll =>
    cases hs
    simp only [FrontRoom, iff_true]
    exact fun hpos => absurd hpos (Nat.lt_irrefl 0)

theorem visible_new [HeadMemory] : Buffer.new.Visible := fun h => absurd h (Nat.lt_irrefl 0)

/-- **Exactly when the front is visible.** Along every run of calls: the data in the
buffer shows at the front of every state reached if and only if every call that adds
bytes finds the buffer non-empty or room in the read block. -/
theorem front_visible_iff [HeadMemory] {ops : List BufOp} {b : Buffer}
    (h : bufferMachine.run ops = some b) :
    bufferMachine.Always Visible ops ↔ bufferMachine.Each FrontRoom ops :=
  Machine.always_iff_each Buffer.valid_new visible_new kept_valid visible_step h

/-- Two bytes, one read: the front stays visible. -/
theorem front_visible_two_bytes : bufferMachine.Always Visible [.append [65, 66], .retrieve 1] := by
  obtain ⟨b, hb⟩ := Option.isSome_iff_exists.mp
    (show (bufferMachine.run [.append [65, 66], .retrieve 1]).isSome by decide +kernel)
  refine (front_visible_iff hb).mpr ⟨fun _ => .inr ⟨rfl, by decide⟩, fun _ _ => ⟨trivial, ?_⟩⟩
  exact fun _ _ => trivial

/-- A block filled and drained to its last byte hides the next byte: `size()` is 1,
`peek_size()` is 0 and `peek_byte()` reads `data[4096]`. -/
theorem front_hidden_after_full_drain :
    ∃ b, bufferMachine.run [.append (List.replicate 4096 65), .retrieve 4096, .append [66]] =
      some b ∧ b.size = 1 ∧ b.peekSize = 0 ∧ b.peekByte = none ∧ ¬ b.Visible := by
  let b := ((Buffer.new.append (List.replicate 4096 65)).retrieve 4096).append [66]
  have h : b.size = 1 ∧ b.peekSize = 0 ∧ b.peekByte = none := by decide +kernel
  refine ⟨b, rfl, h.1, h.2.1, h.2.2, fun hvis => ?_⟩
  have := (hvis (by omega)).1
  omega

end Hound
