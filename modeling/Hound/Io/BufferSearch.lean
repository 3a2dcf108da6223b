import Hound.Io.BufferQueue
import Hound.Lib.Search

/-!
# Searching the chain buffer

A match may begin in any block and go on over blocks that hold nothing. `matchLoop_iff` says
that the comparison along the chain is the comparison with the bytes it holds, as long as the
outer loop keeps the match inside `size_`. `search_spec` puts the three searches over the
chain beside the first occurrence in the content.
-/

namespace Hound

open Lib

namespace Buffer

/-- What a search of `u` in `l` returns, if `l` begins at `offset`: the first place, or -1. -/
def Searched (u l : Bytes) (offset : Nat) (pos : Int) : Prop :=
  (∃ i, FirstAt u l i ∧ pos = (offset + i : Nat)) ∨ (∀ i, ¬ u <+: l.drop i) ∧ pos = -1

section Searched

variable {u l r : Bytes} {offset : Nat} {p q : Int}

theorem Searched.unique (hp : Searched u l offset p) (hq : Searched u l offset q) : p = q := by
  rcases hp with ⟨i, hi, rfl⟩ | ⟨hn, rfl⟩
  · rcases hq with ⟨j, hj, rfl⟩ | ⟨hn, -⟩
    · rw [hi.unique hj]
    · exact absurd hi.here (hn i)
  · rcases hq with ⟨j, hj, -⟩ | ⟨-, rfl⟩
    · exact absurd hj.here (hn j)
    · rfl

theorem Searched.behind (hl : ∀ j < l.length, ¬ u <+: (l ++ r).drop j)
    (h : Searched u r (offset + l.length) p) : Searched u (l ++ r) offset p := by
  rcases h with ⟨i, hi, rfl⟩ | ⟨hno, rfl⟩
  · exact .inl ⟨l.length + i, hi.behind hl, by rw [Nat.add_assoc]⟩
  · refine .inr ⟨fun i => ?_, rfl⟩
    rcases Nat.lt_or_ge i l.length with hlt | hge
    · exact hl i hlt
    · obtain ⟨k, rfl⟩ := Nat.exists_eq_add_of_le hge
      rw [List.drop_length_add_append]
      exact hno k

theorem Searched.of_first {i : Nat} (h : Searched u l 0 p) (hi : FirstAt u l i) : p = i := by
  rcases h with ⟨j, hj, rfl⟩ | ⟨hno, -⟩
  · rw [hi.unique hj, Nat.zero_add]
  · exact absurd hi.here (hno i)

theorem Searched.of_absent (h : Searched u l 0 p) (hno : ∀ i, ¬ u <+: l.drop i) : p = -1 := by
  rcases h with ⟨j, hj, -⟩ | ⟨-, rfl⟩
  · exact absurd hj.here (hno j)
  · rfl

end Searched

/-! ## Comparing along the chain -/

theorem take_drop_bytes (k : Block) (s : Nat) {n : Nat} (hn : n ≤ k.readable - s) :
    (k.data.drop (k.readIdx + s)).take n = (k.bytes.drop s).take n := by
  rw [Block.bytes, List.drop_take, List.take_take, List.drop_drop, Nat.min_eq_left hn]

theorem matchLoop_iff {needle : Bytes} : ∀ {ks : List Block} {s matched : Nat},
    (∀ k ∈ ks, k.Ok) → (∀ k ∈ ks.head?, s ≤ k.readable) →
      (needle.drop matched).length ≤ ((ks.flatMap Block.bytes).drop s).length →
      (matchLoop needle ks s matched = true ↔
        needle.drop matched <+: (ks.flatMap Block.bytes).drop s)
  | [], s, matched, _, _, hlen => by
    have hnil : needle.drop matched = [] := List.eq_nil_of_length_eq_zero (by simpa using hlen)
    rw [hnil]
    exact iff_of_true rfl List.nil_prefix
  | k :: ks, s, matched, hok, hs, hlen => by
    obtain ⟨hk, hks⟩ := List.forall_mem_cons.mp hok
    have hs' : s ≤ k.readable := hs k rfl
    have hsplit : ((k :: ks).flatMap Block.bytes).drop s =
        k.bytes.drop s ++ ks.flatMap Block.bytes := by
      rw [List.flatMap_cons, List.drop_append_of_le_length (by rw [hk.bytes_length]; exact hs')]
    have hav : (k.bytes.drop s).length = k.readable - s := by
      rw [List.length_drop, hk.bytes_length]
    rw [hsplit] at hlen ⊢
    by_cases hm : matched < needle.length
    · let n := min (needle.length - matched) (k.readable - s)
      have hn : min (needle.drop matched).length (k.bytes.drop s).length = n := by
        rw [List.length_drop, hav]
      have hcmp := take_drop_bytes k s (Nat.min_le_right (needle.length - matched) (k.readable - s))
      have hrest : (needle.drop (matched + n)).length ≤
          ((ks.flatMap Block.bytes).drop 0).length := by
        simp only [List.length_append, List.length_drop] at hlen ⊢
        rw [hk.bytes_length] at hlen
        omega
      have ih := matchLoop_iff hks (fun _ _ => Nat.zero_le _) hrest
      rw [matchLoop, if_pos hm, prefix_append_iff, hn, List.drop_drop]
      simp only [hcmp]
      by_cases heq : (k.bytes.drop s).take n = (needle.drop matched).take n
      · rw [if_neg (not_not_intro heq), ih, List.drop_zero]
        exact (and_iff_right heq.symm).symm
      · rw [if_pos heq]
        exact iff_of_false Bool.false_ne_true fun h => heq h.1.symm
    · have hnil : needle.drop matched = [] := List.drop_eq_nil_of_le (Nat.le_of_not_lt hm)
      rw [matchLoop, if_neg hm, hnil]
      exact iff_of_true rfl List.nil_prefix

/-! ## The outer loops -/

/-- The positions of a block at which the rest of the content is as long as the needle. -/
theorem starts_eq (n offset len size : Nat) :
    ((List.range n).takeWhile fun i => offset + i + len ≤ size) =
      List.range (min n (size + 1 - (offset + len))) := by
  induction n with
  | zero => rfl
  | succ n ih =>
    rw [List.range_succ, List.takeWhile_append, ih, List.length_range, List.length_range]
    by_cases hn : n < size + 1 - (offset + len)
    · have hguard : offset + n + len ≤ size := by omega
      rw [if_pos (by omega), Nat.min_eq_left (by omega), List.takeWhile_cons,
        if_pos (decide_eq_true hguard), List.range_succ]
      rfl
    · have hguard : ¬ offset + n + len ≤ size := by omega
      rw [Nat.min_eq_right (show size + 1 - (offset + len) ≤ n + 1 by omega),
        Nat.min_eq_right (show size + 1 - (offset + len) ≤ n by omega)]
      split
      · next he => rw [List.takeWhile_cons, if_neg (by simpa using hguard), List.append_nil, ← he]
      · rfl

theorem findLoop_spec {needle : Bytes} (hne : needle ≠ []) {size : Nat} :
    ∀ {ks : List Block} {offset : Nat}, (∀ k ∈ ks, k.Ok) →
      offset + (ks.flatMap Block.bytes).length = size →
      Searched needle (ks.flatMap Block.bytes) offset (findLoop needle size ks offset)
  | [], offset, _, _ => .inr ⟨fun i hp => hne (by simpa using hp), rfl⟩
  | k :: ks, offset, hok, hsize => by
    obtain ⟨hk, hks⟩ := List.forall_mem_cons.mp hok
    have hlen : ((k :: ks).flatMap Block.bytes).length =
        k.readable + (ks.flatMap Block.bytes).length := by
      rw [List.flatMap_cons, List.length_append, hk.bytes_length]
    -- where the guard of the loop holds, the comparison is one with the content
    have hmatch (i : Nat) (hi : i < k.readable) (hg : offset + i + needle.length ≤ size) :
        matchLoop needle (k :: ks) i 0 = true ↔
          needle <+: ((k :: ks).flatMap Block.bytes).drop i := by
      refine matchLoop_iff hok (fun k' hk' => ?_) ?_
      · cases hk'
        exact Nat.le_of_lt hi
      · rw [List.drop_zero, List.length_drop]
        omega
    rw [findLoop, starts_eq]
    split
    · next i hf =>
      obtain ⟨hm, hi, hbefore⟩ := List.find?_range_eq_some.mp hf
      have hi := List.mem_range.mp hi
      refine .inl ⟨i, ⟨(hmatch i (by omega) (by omega)).mp hm, fun j hj hp => ?_⟩, by simp⟩
      have htrue := (hmatch j (by omega) (by omega)).mpr hp
      simpa [htrue] using hbefore j hj
    · next hf =>
      have ih : Searched needle (ks.flatMap Block.bytes) (offset + k.readable)
          (findLoop needle size ks (offset + k.readable)) := findLoop_spec hne hks (by omega)
      rw [← hk.bytes_length] at ih ⊢
      refine ih.behind fun j hj hp => ?_
      have hp : needle <+: ((k :: ks).flatMap Block.bytes).drop j := hp
      have hin := prefix_drop_le hne hp
      rw [hk.bytes_length] at hj
      have htrue := (hmatch j hj (by omega)).mpr hp
      have hfalse := List.find?_range_eq_none.mp hf j (by omega)
      simp [htrue] at hfalse

theorem findCharLoop_spec (c : Byte) :
    ∀ {ks : List Block} {offset : Nat}, (∀ k ∈ ks, k.Ok) →
      Searched [c] (ks.flatMap Block.bytes) offset (findCharLoop c ks offset)
  | [], offset, _ => .inr ⟨fun i hp => by simp at hp, rfl⟩
  | k :: ks, offset, hok => by
    obtain ⟨hk, hks⟩ := List.forall_mem_cons.mp hok
    rw [findCharLoop, List.flatMap_cons]
    split
    · next i hf =>
      exact .inl ⟨i, (firstAt_singleton hf).append (List.cons_ne_nil c []) _, by simp⟩
    · next hf =>
      have ih : Searched [c] (ks.flatMap Block.bytes) (offset + k.readable)
          (findCharLoop c ks (offset + k.readable)) := findCharLoop_spec c hks
      rw [← hk.bytes_length] at ih ⊢
      refine ih.behind fun j hj hp => ?_
      have hmem := mem_of_singleton_prefix ((prefix_drop_append hj _).mp hp)
      exact List.idxOf?_eq_none_iff.mp hf hmem

/-! ## The three searches -/

variable {b : Buffer}

theorem Valid.find_searched (h : b.Valid) {needle : Bytes} (hne : needle ≠ []) :
    Searched needle b.content 0 (b.find needle) := by
  rw [find]
  split
  · next hshort =>
    refine .inr ⟨fun i hp => ?_, rfl⟩
    have hin := prefix_drop_le hne hp
    rw [← h.size_eq] at hin
    rcases hshort with h0 | hlt
    · exact hne h0
    · omega
  · refine findLoop_spec hne (fun k hk => h.ok k (List.mem_of_mem_drop hk)) ?_
    rw [h.size_eq, Nat.zero_add]
    rfl

theorem Valid.findChar_searched (h : b.Valid) (c : Byte) :
    Searched [c] b.content 0 (b.findChar c) := by
  rw [findChar]
  split
  · next h0 =>
    refine .inr ⟨fun i hp => ?_, rfl⟩
    rw [h.size_eq_zero_iff.mp h0] at hp
    simp at hp
  · exact findCharLoop_spec c fun k hk => h.ok k (List.mem_of_mem_drop hk)

theorem find_nil (b : Buffer) : b.find [] = -1 := if_pos (.inl rfl)

theorem readUntil_absent {delim : Bytes} (h : b.find delim = -1) : b.readUntil delim = [] := by
  rw [readUntil, h]
  exact if_pos (by decide)

theorem Valid.readUntil_found (h : b.Valid) {delim : Bytes} {i : Nat} (hi : b.find delim = i) :
    b.readUntil delim =
      if i + delim.length ≤ b.rd.readable then b.content.take (i + delim.length) else [] := by
  rw [readUntil, hi]
  simp only [Int.toNat_natCast]
  rw [if_neg (by omega)]
  split
  · next hle =>
    have hview := take_drop_bytes b.rd 0 (n := i + delim.length) hle
    rw [Nat.add_zero, List.drop_zero] at hview
    rw [hview, h.content_eq,
      List.take_append_of_le_length (by rw [h.rd_bytes_length]; exact hle)]
  · rfl

theorem Valid.readUntil_cases (h : b.Valid) (delim : Bytes) : b.readUntil delim = [] ∨
    ∃ i, FirstAt delim b.content i ∧ b.readUntil delim = b.content.take (i + delim.length) := by
  by_cases hne : delim = []
  · exact .inl (readUntil_absent (hne ▸ find_nil b))
  · rcases h.find_searched hne with ⟨i, hi, hpos⟩ | ⟨-, hpos⟩
    · rw [Nat.zero_add] at hpos
      rw [h.readUntil_found hpos]
      split
      · exact .inr ⟨i, hi, rfl⟩
      · exact .inl rfl
    · exact .inl (readUntil_absent hpos)

theorem Valid.readUntil_first (h : b.Valid) {delim : Bytes} {i : Nat}
    (hi : FirstAt delim b.content i) (hin : i + delim.length ≤ b.rd.readable) :
    b.readUntil delim = b.content.take (i + delim.length) := by
  by_cases hne : delim = []
  · subst hne
    have h0 : FirstAt [] b.content 0 := ⟨List.nil_prefix, fun j hj => absurd hj (Nat.not_lt_zero j)⟩
    rw [readUntil_absent (find_nil b), hi.unique h0]
    rfl
  · rw [h.readUntil_found ((h.find_searched hne).of_first hi), if_pos hin]

end Buffer

/-- **Searching the chain is searching the content.** In every state that calls reach, `find`
gives the first occurrence in the readable bytes or -1, for a character as for the string of
it, and `read_until` gives the bytes to the end of the first delimiter, at least if the read
block holds them. -/
theorem search_spec [HeadMemory] {ops : List BufOp} {b : Buffer}
    (h : bufferMachine.run ops = some b) :
    (∀ needle ≠ [], (∀ i, FirstAt needle b.content i → b.find needle = i) ∧
      ((¬ needle <:+: b.content) → b.find needle = -1)) ∧
    (∀ c, b.findChar c = b.find [c]) ∧
    ∀ delim, (b.readUntil delim = [] ∨ ∃ i, FirstAt delim b.content i ∧
        b.readUntil delim = b.content.take (i + delim.length)) ∧
      ∀ i, FirstAt delim b.content i → i + delim.length ≤ b.rd.readable →
        b.readUntil delim = b.content.take (i + delim.length) := by
  have hv := valid_of_run h
  refine ⟨fun needle hne => ⟨fun i hi => (hv.find_searched hne).of_first hi, fun hno => ?_⟩,
    fun c => ?_, fun delim => ⟨hv.readUntil_cases delim, fun i hi hin => hv.readUntil_first hi hin⟩⟩
  · refine (hv.find_searched hne).of_absent fun i hp => hno ?_
    exact hp.isInfix.trans (List.drop_suffix i b.content).isInfix
  · exact (hv.findChar_searched c).unique (hv.find_searched (List.cons_ne_nil c []))

/-- A delimiter behind the part of the first block that `ensure_writable` left filled. -/
theorem search_spec_straddle : ∃ b, bufferMachine.run [.append (bytes "GET /\r"),
    .ensureWritable 4096, .append (bytes "\n\r\n")] = some b ∧ b.find crlf = 5 ∧
    b.findChar LF = b.find [LF] ∧ (b.readUntil (bytes " ")) = bytes "GET " := by
  let ops : List BufOp := [.append (bytes "GET /\r"), .ensureWritable 4096,
    .append (bytes "\n\r\n")]
  have hrun : (bufferMachine.run ops).map (fun b => (b.content, b.rd.readable)) =
    some (bytes "GET /\r\n\r\n", 6) := by decide +kernel
  obtain ⟨b, hb, hpair⟩ := Option.map_eq_some_iff.mp hrun
  obtain ⟨hc, hr⟩ := Prod.mk.inj hpair
  obtain ⟨hfind, hchar, huntil⟩ := search_spec hb
  refine ⟨b, hb, ?_, hchar LF, ?_⟩
  · exact (hfind crlf (by decide)).1 5 (hc ▸ ⟨by decide, by decide⟩)
  · rw [(huntil (bytes " ")).2 3 (hc ▸ ⟨by decide, by decide⟩) (by rw [hr]; decide), hc]
    decide

end Hound
