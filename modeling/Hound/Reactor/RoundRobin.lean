import Mathlib.Data.Int.CardIntervalMod
import Hound.Reactor.ThreadPool

/-!
# `EventLoopThreadPool::get_next_loop`

`loops_` is the base loop and the worker loops behind it, and `next_index_` a `size_t` that goes up
by one with each call, from whatever thread (`fetch_add`), and wraps. As long as it does not wrap,
the calls go round the loops (`count_handed`); when it does, they begin again at the base loop.
`balanced`: over any calls no loop is handed out more often than another, but for one call and one
for each time the index has wrapped.
-/

namespace Hound.Reactor

/-- A pool after `start`. -/
structure LoopPool where
  base : LoopId
  workers : List LoopId
  nextIndex : UInt64 := 0

namespace LoopPool

/-- `loops_`. -/
def loops (p : LoopPool) : List LoopId := p.base :: p.workers

theorem index_lt (p : LoopPool) (i : Nat) : i % p.loops.length < p.loops.length :=
  Nat.mod_lt _ (Nat.succ_pos _)

def getNextLoop (p : LoopPool) : LoopId × LoopPool :=
  (p.loops.get ⟨p.nextIndex.toNat % p.loops.length, p.index_lt _⟩,
    { p with nextIndex := p.nextIndex + 1 })

def after : LoopPool → Nat → LoopPool
  | p, 0 => p
  | p, n + 1 => p.getNextLoop.2.after n

def handed : LoopPool → Nat → List LoopId
  | _, 0 => []
  | p, n + 1 => p.getNextLoop.1 :: p.getNextLoop.2.handed n

theorem handed_add (p : LoopPool) (m n : Nat) :
    p.handed (m + n) = p.handed m ++ (p.after m).handed n := by
  induction m generalizing p with
  | zero => rw [Nat.zero_add]; rfl
  | succ m ih =>
    rw [Nat.succ_add]
    exact congrArg (_ :: ·) (ih _)

theorem loops_after (p : LoopPool) (n : Nat) : (p.after n).loops = p.loops := by
  induction n generalizing p with
  | zero => rfl
  | succ n ih => exact ih _

theorem nextIndex_after (p : LoopPool) (n : Nat) :
    (p.after n).nextIndex.toNat = (p.nextIndex.toNat + n) % 2 ^ 64 := by
  induction n generalizing p with
  | zero => exact (Nat.mod_eq_of_lt p.nextIndex.toNat_lt).symm
  | succ n ih =>
    refine (ih p.getNextLoop.2).trans ?_
    show ((p.nextIndex + 1).toNat + n) % 2 ^ 64 = _
    rw [UInt64.toNat_add, show (1 : UInt64).toNat = 1 from rfl]
    omega

/-- Which calls return the loop at `i`, up to where the index wraps. -/
theorem count_handed {p : LoopPool} (hd : p.loops.Nodup) {i : Nat} (hi : i < p.loops.length) :
    ∀ {n : Nat}, p.nextIndex.toNat + n ≤ 2 ^ 64 →
      (p.handed n).count p.loops[i] =
        Nat.count (fun k => (p.nextIndex.toNat + k) % p.loops.length = i) n
  | 0, _ => rfl
  | n + 1, hn => by
    have ih := count_handed hd hi (n := n) (by omega)
    have hindex : (p.after n).nextIndex.toNat = p.nextIndex.toNat + n := by
      rw [nextIndex_after]
      omega
    have hlast : (p.after n).handed 1 =
        [p.loops.get ⟨(p.nextIndex.toNat + n) % p.loops.length, p.index_lt _⟩] := by
      show [(p.after n).getNextLoop.1] = _
      simp only [getNextLoop, loops_after, hindex, List.get_eq_getElem]
    rw [handed_add, List.count_append, hlast, ih, Nat.count_succ, List.count_singleton,
      List.get_eq_getElem]
    simp only [beq_iff_eq, hd.getElem_inj_iff]

/-- Of consecutive numbers, as many leave the remainder `i` as every other one, but for one. -/
theorem count_mod_le (a n : Nat) {s i j : Nat} (hi : i < s) (hj : j < s) :
    Nat.count (fun k => (a + k) % s = i) n ≤ Nat.count (fun k => (a + k) % s = j) n + 1 := by
  have hs : 0 < s := Nat.zero_lt_of_lt hi
  have hcount : ∀ {i : Nat}, i < s → ∃ v, Nat.count (fun k => (a + k) % s = i) n =
      n / s + if v % s < n % s then 1 else 0 := by
    intro i hi
    -- `a + k` leaves `i` where `k` leaves `v`
    let v := i + (s - 1) * a
    have hv : a + v ≡ i [MOD s] := by
      have hsum : a + v = i + s * a := by
        show a + (i + (s - 1) * a) = i + s * a
        obtain ⟨t, rfl⟩ := Nat.exists_eq_succ_of_ne_zero hs.ne'
        rw [Nat.succ_sub_one, Nat.succ_mul]
        omega
      rw [hsum, Nat.ModEq, Nat.add_mul_mod_self_left]
    have hiff : ∀ k, (a + k) % s = i ↔ k ≡ v [MOD s] := by
      intro k
      have hmod : (a + k) % s = i ↔ a + k ≡ i [MOD s] := by rw [Nat.ModEq, Nat.mod_eq_of_lt hi]
      rw [hmod]
      constructor
      · exact fun h => Nat.ModEq.add_left_cancel' a (h.trans hv.symm)
      · exact fun h => (h.add_left a).trans hv
    refine ⟨v, ?_⟩
    rw [← Nat.count_modEq_card n hs]
    simp only [hiff]
  obtain ⟨v, hv⟩ := hcount hi
  obtain ⟨u, hu⟩ := hcount hj
  rw [hv, hu]
  split <;> omega

theorem balanced_segment {p : LoopPool} (hd : p.loops.Nodup) {l l' : LoopId} (hl : l ∈ p.loops)
    (hl' : l' ∈ p.loops) {n : Nat} (hn : p.nextIndex.toNat + n ≤ 2 ^ 64) :
    (p.handed n).count l ≤ (p.handed n).count l' + 1 := by
  obtain ⟨i, hi, rfl⟩ := List.getElem_of_mem hl
  obtain ⟨j, hj, rfl⟩ := List.getElem_of_mem hl'
  rw [count_handed hd hi hn, count_handed hd hj hn]
  exact count_mod_le _ n hi hj

/-- **Calls are spread evenly**, whichever threads make them: from any state of a pool and over any
number of calls, a loop is returned at most once more often than another one, and once more for
each time the index wraps. -/
theorem balanced {p : LoopPool} (hd : p.loops.Nodup) {l l' : LoopId} (hl : l ∈ p.loops)
    (hl' : l' ∈ p.loops) (n : Nat) :
    (p.handed n).count l ≤
      (p.handed n).count l' + 1 + (p.nextIndex.toNat + n) / 2 ^ 64 := by
  induction n using Nat.strong_induction_on generalizing p with
  | _ n ih =>
    have hlt := p.nextIndex.toNat_lt
    rcases Nat.lt_or_ge (2 ^ 64) (p.nextIndex.toNat + n) with hwrap | hle
    · -- up to the wrap, and from the base loop on
      obtain ⟨m, hm⟩ : ∃ m, n = 2 ^ 64 - p.nextIndex.toNat + m :=
        ⟨n - (2 ^ 64 - p.nextIndex.toNat), by omega⟩
      have hzero : (p.after (2 ^ 64 - p.nextIndex.toNat)).nextIndex.toNat = 0 := by
        rw [nextIndex_after]
        omega
      have hloops := p.loops_after (2 ^ 64 - p.nextIndex.toNat)
      have hfirst := balanced_segment hd hl hl' (n := 2 ^ 64 - p.nextIndex.toNat) (by omega)
      have hrest := ih m (by omega) (hloops ▸ hd) (hloops ▸ hl) (hloops ▸ hl')
      rw [hzero] at hrest
      rw [hm, handed_add, List.count_append, List.count_append]
      omega
    · have hsegment := balanced_segment hd hl hl' hle
      omega

def wrapping : LoopPool := { base := 0, workers := [1, 2], nextIndex := 0xffffffffffffffff }

/-- The base loop is returned twice in a row. -/
theorem balanced_wrapping : wrapping.handed 2 = [0, 0] ∧
    (wrapping.handed 2).count 0 ≤
      (wrapping.handed 2).count 1 + 1 + (wrapping.nextIndex.toNat + 2) / 2 ^ 64 :=
  ⟨by decide +kernel, balanced (by decide) (by decide) (by decide) 2⟩

end LoopPool

end Hound.Reactor
