import Hound.Io.BufferInv

/-!
# Reading from the chain buffer

`read_n`, `retrieve_all` and `retrieve` on a `Valid` buffer. `retrieve` is the sum
of its parts: `retrieveLoop_spec` for the loop that leaves drained blocks behind,
`Valid.consume` for the rest, `Valid.compact` for the copy back into `head_`.
-/

namespace Hound.Buffer

variable {b : Buffer}

/-! ## `read_n` and `retrieve_all` -/

theorem readLoop_eq : ∀ {ks : List Block} (n : Nat), (∀ k ∈ ks, k.Ok) →
    readLoop ks n = (ks.flatMap Block.bytes).take n
  | [], n, _ => by simp [readLoop]
  | k :: ks, n, hok => by
    have hk := hok k List.mem_cons_self
    have ih := readLoop_eq (n - min n k.readable) fun x (hx : x ∈ ks) =>
      hok x (List.mem_cons_of_mem _ hx)
    rw [readLoop, List.flatMap_cons, List.take_append, hk.bytes_length]
    split
    · simp only
      rw [ih, Block.bytes, List.take_take, show n - min n k.readable = n - k.readable by omega]
    · next h0 => simp [show n = 0 by omega]

theorem Valid.readN_eq (h : b.Valid) (n : Nat) :
    b.readN n = if n ≤ b.size then b.content.take n else [] := by
  unfold readN
  rw [readLoop_eq n fun k hk => h.ok k (List.mem_of_mem_drop hk)]
  by_cases hn : n ≤ b.size
  · rw [if_neg (by omega), if_pos hn]; rfl
  · rw [if_pos (by omega), if_neg hn]

theorem content_retrieveAll (b : Buffer) : b.retrieveAll.content = [] :=
  List.flatMap_eq_nil_iff.mpr fun k hk => by
    obtain ⟨k', -, rfl⟩ := List.mem_map.mp (List.mem_of_mem_drop hk)
    exact (Block.empty_reset k').bytes

theorem Valid.retrieveAll (h : b.Valid) : b.retrieveAll.Valid where
  ok := by
    intro k hk
    obtain ⟨k', hk', rfl⟩ := List.mem_map.mp hk
    exact (h.ok k' hk').reset
  read_le := Nat.le_refl _
  write_lt := by
    have := h.write_lt
    simp only [Buffer.retrieveAll, List.length_map]
    omega
  behind := by
    intro k hk
    obtain ⟨k', -, rfl⟩ := List.mem_map.mp (List.mem_of_mem_drop hk)
    exact Block.empty_reset k'
  size_eq := by rw [content_retrieveAll]; rfl

/-! ## Consuming from the read block -/

theorem consume_eq (b : Buffer) (n : Nat) :
    b.consume n = { b with
      blocks := b.blocks.modify b.readBlock (·.read n), size := b.size - n } := rfl

theorem Valid.rd_consume (h : b.Valid) (n : Nat) : (b.consume n).rd = b.rd.read n := by
  have := blockAt_modify b b.readBlock b.readBlock (·.read n) h.read_lt
  rw [if_pos rfl] at this
  exact this

theorem Valid.content_consume (h : b.Valid) {n : Nat} (hn : n ≤ b.rd.readable) :
    (b.consume n).content = b.content.drop n := by
  have hlt : (b.consume n).readBlock < (b.consume n).blocks.length := by
    simpa [consume_eq] using h.read_lt
  have hrest : (b.consume n).blocks.drop (b.readBlock + 1) = b.blocks.drop (b.readBlock + 1) :=
    List.drop_modify_of_lt _ _ _ _ (Nat.lt_succ_self _)
  calc (b.consume n).content
      = (b.consume n).rd.bytes ++
          ((b.consume n).blocks.drop (b.readBlock + 1)).flatMap Block.bytes := by
        rw [content, drop_eq_blockAt_cons hlt, List.flatMap_cons]; rfl
    _ = b.rd.bytes.drop n ++ (b.blocks.drop (b.readBlock + 1)).flatMap Block.bytes := by
        rw [h.rd_consume, Block.bytes_read, hrest]
    _ = b.content.drop n := by
        rw [h.content_eq, List.drop_append_of_le_length (by rw [h.rd_bytes_length]; exact hn)]

theorem Valid.consume (h : b.Valid) {n : Nat} (hn : n ≤ b.rd.readable) : (b.consume n).Valid where
  ok := by
    refine Lib.forall_mem_modify h.ok fun k hk hok => hok.read ?_
    rwa [rd, blockAt_of_getElem? hk] at hn
  read_le := h.read_le
  write_lt := by simpa [consume_eq] using h.write_lt
  behind := by
    intro k hk
    rw [consume_eq] at hk
    have hr := h.read_le
    simp only [List.drop_modify_of_lt _ _ _ _ (show b.readBlock < b.writeBlock + 1 by omega)] at hk
    exact h.behind k hk
  size_eq := by
    rw [h.content_consume hn, List.length_drop, ← h.size_eq]; rfl

theorem Valid.skip (h : b.Valid) (hd : b.rd.bytes = []) (hlt : b.readBlock < b.writeBlock) :
    { b with readBlock := b.readBlock + 1 }.Valid ∧
      { b with readBlock := b.readBlock + 1 }.content = b.content := by
  have hc : { b with readBlock := b.readBlock + 1 }.content = b.content := by
    rw [h.content_eq, hd]; rfl
  exact ⟨⟨h.ok, hlt, h.write_lt, h.behind, by rw [hc]; exact h.size_eq⟩, hc⟩

/-! ## The loop of `retrieve` -/

section
variable {n : Nat}

/-- A turn of the loop consumes `min n readable` bytes, and either moves
to the next block or was asked for less than the read block holds. -/
theorem Valid.retrieveStep_spec (h : b.Valid) (hne : b.readBlock ≠ b.writeBlock) :
    (b.retrieveStep n).Valid ∧
    (b.retrieveStep n).content = b.content.drop (min n b.rd.readable) ∧
    (b.retrieveStep n).writeBlock = b.writeBlock ∧
    ((b.retrieveStep n).readBlock = b.readBlock + 1 ∨
      ((b.retrieveStep n).readBlock = b.readBlock ∧ n < b.rd.readable ∧
        (b.retrieveStep n).rd.bytes ≠ [])) := by
  have hle : min n b.rd.readable ≤ b.rd.readable := Nat.min_le_right _ _
  have hv := h.consume hle
  have hc := h.content_consume hle
  unfold Buffer.retrieveStep
  simp only
  split
  · next hd =>
    have hnil := hv.ok_rd.bytes_eq_nil_iff.mpr hd
    have hr := h.read_le
    obtain ⟨hs, hsc⟩ := hv.skip hnil (show b.readBlock < b.writeBlock by omega)
    exact ⟨hs, hsc.trans hc, rfl, .inl rfl⟩
  · next hd =>
    refine ⟨hv, hc, rfl, .inr ⟨rfl, ?_, fun h0 => hd (hv.ok_rd.bytes_eq_nil_iff.mp h0)⟩⟩
    rw [h.rd_consume] at hd
    have := h.ok_rd.read_le
    simp only [Block.read, Block.readable] at hd ⊢
    omega

theorem retrieveLoop_zero (fuel : Nat) (b : Buffer) : retrieveLoop fuel b 0 = (b, 0) := by
  cases fuel <;> simp [retrieveLoop]

theorem retrieveLoop_same (he : b.readBlock = b.writeBlock) (fuel n : Nat) :
    retrieveLoop fuel b n = (b, n) := by
  cases fuel <;> simp [retrieveLoop, he]

theorem retrieveLoop_spec : ∀ {fuel : Nat} {b : Buffer} {n : Nat}, b.Valid →
    b.writeBlock - b.readBlock < fuel →
    (retrieveLoop fuel b n).1.Valid ∧
    (retrieveLoop fuel b n).2 ≤ n ∧
    (retrieveLoop fuel b n).1.content =
      b.content.drop (n - (retrieveLoop fuel b n).2) ∧
    ((retrieveLoop fuel b n).2 = 0 ∨
      (retrieveLoop fuel b n).1.readBlock = (retrieveLoop fuel b n).1.writeBlock)
  | 0, _, _, _, hf => absurd hf (Nat.not_lt_zero _)
  | fuel + 1, b, n, h, hf => by
    rw [retrieveLoop]
    split
    · next hc =>
      obtain ⟨hv, hcon, hw, hmove⟩ := h.retrieveStep_spec (n := n) hc.2
      rcases hmove with hr | ⟨-, hlt, -⟩
      · have hfuel : (b.retrieveStep n).writeBlock - (b.retrieveStep n).readBlock < fuel := by
          rw [hw, hr]; have := h.read_le; omega
        obtain ⟨h1, h2, h3, h4⟩ := retrieveLoop_spec (n := n - min n b.rd.readable) hv hfuel
        refine ⟨h1, by omega, ?_, h4⟩
        rw [h3, hcon, List.drop_drop]
        congr 1
        omega
      · have : min n b.rd.readable = n := by omega
        rw [this, Nat.sub_self, retrieveLoop_zero]
        exact ⟨hv, Nat.zero_le _, by rw [hcon, this]; rfl, .inl rfl⟩
    · next hc =>
      refine ⟨h, Nat.le_refl _, by simp, ?_⟩
      simp only
      omega

theorem retrieveLoop_mono : ∀ (fuel : Nat) (b : Buffer) (n : Nat),
    b.readBlock ≤ (retrieveLoop fuel b n).1.readBlock
  | 0, _, _ => Nat.le_refl _
  | fuel + 1, b, n => by
    rw [retrieveLoop]
    split
    · refine Nat.le_trans ?_ (retrieveLoop_mono fuel _ _)
      unfold Buffer.retrieveStep
      simp only
      split
      · exact Nat.le_succ _
      · exact Nat.le_refl _
    · exact Nat.le_refl _

/-- Where the loop leaves the read block when it had something to do. -/
theorem retrieveLoop_front : ∀ {fuel : Nat} {b : Buffer} {n : Nat}, b.Valid →
    b.writeBlock - b.readBlock < fuel → 0 < n → b.readBlock ≠ b.writeBlock →
    b.readBlock < (retrieveLoop fuel b n).1.readBlock ∨
      (retrieveLoop fuel b n).1.rd.bytes ≠ []
  | 0, _, _, _, hf, _, _ => absurd hf (Nat.not_lt_zero _)
  | fuel + 1, b, n, h, hf, hpos, hne => by
    rw [retrieveLoop, if_pos ⟨hpos, hne⟩]
    obtain ⟨hv, -, hw, hr | ⟨-, hlt, hb⟩⟩ := h.retrieveStep_spec (n := n) hne
    · have hmono := retrieveLoop_mono fuel (b.retrieveStep n)
        (n - min n b.rd.readable)
      exact .inl (by omega)
    · right
      rwa [show min n b.rd.readable = n by omega, Nat.sub_self, retrieveLoop_zero]

end

/-! ## `retrieve` -/

theorem Valid.compact_spec (h : b.Valid) : b.compact.Valid ∧ b.compact.content = b.content := by
  unfold compact
  split
  · refine ⟨h.retrieveAll.append _, ?_⟩
    rw [h.retrieveAll.content_append, content_retrieveAll, h.readN_eq, if_pos (Nat.le_refl _),
      h.size_eq, List.take_length, List.nil_append]
  · exact ⟨h, rfl⟩

/-- `retrieve` before the compaction: what is left of the loop's count is
consumed from the read block. -/
def drained (b : Buffer) (len : Nat) : Buffer :=
  let r := retrieveLoop b.blocks.length b len
  if 0 < r.2 then r.1.consume (min r.2 r.1.rd.readable) else r.1

theorem retrieve_eq (b : Buffer) (len : Nat) :
    b.retrieve len = if len = 0 then b else (b.drained (min len b.size)).compact := by
  unfold retrieve drained
  split
  · rfl
  · rw [show (if b.size < len then b.size else len) = min len b.size by split <;> omega]

theorem Valid.fuel_ok (h : b.Valid) : b.writeBlock - b.readBlock < b.blocks.length := by
  have := h.write_lt
  omega

theorem Valid.drained_spec (h : b.Valid) {len : Nat} (hlen : len ≤ b.size) :
    (b.drained len).Valid ∧ (b.drained len).content = b.content.drop len := by
  obtain ⟨hv, hle, hc, hend⟩ := retrieveLoop_spec (n := len) h h.fuel_ok
  unfold drained
  simp only
  generalize retrieveLoop b.blocks.length b len = r at hv hle hc hend
  have hlenc : r.1.content.length = b.size - (len - r.2) := by
    rw [hc, List.length_drop, ← h.size_eq]
  split
  · next hpos =>
    have he := hv.content_eq_rd (hend.resolve_left (by omega))
    have hmin : min r.2 r.1.rd.readable = r.2 := by
      rw [← hv.rd_bytes_length, ← he, hlenc]; omega
    have hn : r.2 ≤ r.1.rd.readable := by omega
    rw [hmin]
    refine ⟨hv.consume hn, ?_⟩
    rw [hv.content_consume hn, hc, List.drop_drop]
    congr 1
    omega
  · next hpos =>
    refine ⟨hv, ?_⟩
    rw [hc, show r.2 = 0 by omega]
    rfl

theorem Valid.retrieve_spec (h : b.Valid) (len : Nat) :
    (b.retrieve len).Valid ∧ (b.retrieve len).content = b.content.drop len := by
  rw [retrieve_eq]
  split
  · next h0 => subst h0; exact ⟨h, rfl⟩
  · obtain ⟨hv, hc⟩ := h.drained_spec (Nat.min_le_right len b.size)
    obtain ⟨hv', hc'⟩ := hv.compact_spec
    refine ⟨hv', ?_⟩
    rw [hc', hc, h.size_eq]
    rcases Nat.le_total len b.content.length with hle | hle
    · rw [Nat.min_eq_left hle]
    · rw [Nat.min_eq_right hle, List.drop_length, List.drop_eq_nil_of_le hle]

theorem Valid.retrieve (h : b.Valid) (len : Nat) : (b.retrieve len).Valid := (h.retrieve_spec len).1

theorem Valid.content_retrieve (h : b.Valid) (len : Nat) :
    (b.retrieve len).content = b.content.drop len := (h.retrieve_spec len).2

end Hound.Buffer
