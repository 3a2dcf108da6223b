import Mathlib.Algebra.Order.Group.Nat
import Mathlib.Data.Nat.Basic
import Mathlib.Tactic.SplitIfs

/-!
# A hand on a ring of slots

`ahead n hand slot` is the number of steps after which a hand that turns over `n` slots comes
to `slot` for the first time: between 1 and `n`, and `n` for the slot it is on.
-/

namespace Hound.Lib

def ahead (n hand slot : Nat) : Nat := if hand < slot then slot - hand else n - hand + slot

variable {n hand slot : Nat}

theorem ahead_pos (hh : hand < n) : 0 < ahead n hand slot := by
  unfold ahead
  split <;> omega

@[simp] theorem ahead_self (hh : hand < n) : ahead n hand hand = n := by
  rw [ahead, if_neg (Nat.lt_irrefl _)]
  omega

theorem succ_mod (hh : hand < n) : (hand + 1) % n = if hand + 1 = n then 0 else hand + 1 := by
  split
  · next h => rw [h, Nat.mod_self]
  · exact Nat.mod_eq_of_lt (by omega)

theorem ahead_succ_mod (hh : hand < n) : ahead n hand ((hand + 1) % n) = 1 := by
  rw [succ_mod hh, ahead]
  split <;> split <;> omega

/-- A step brings the hand nearer to every slot but the one it steps on. -/
theorem ahead_step (hh : hand < n) (hs : slot < n) (hne : slot ≠ (hand + 1) % n) :
    ahead n ((hand + 1) % n) slot + 1 = ahead n hand slot := by
  rw [succ_mod hh] at hne ⊢
  simp only [ahead]
  split_ifs at hne ⊢ <;> omega

theorem ahead_add_mod (hh : hand < n) (d : Nat) :
    ahead n hand ((hand + d) % n) = if d % n = 0 then n else d % n := by
  have hd : d % n < n := Nat.mod_lt _ (by omega)
  have hsum : (hand + d) % n = (hand + d % n) % n := (Nat.add_mod_mod hand d n).symm
  have hcase : (hand + d % n) % n =
      if hand + d % n < n then hand + d % n else hand + d % n - n := by
    split
    · next h => exact Nat.mod_eq_of_lt h
    · next h => rw [Nat.mod_eq_sub_mod (by omega), Nat.mod_eq_of_lt (by omega)]
  rw [hsum, hcase, ahead]
  split <;> split <;> split <;> omega

/-- Every slot is some places on from the hand, no more than the steps to it. -/
theorem exists_offset (hh : hand < n) (hs : slot < n) :
    ∃ offset < n, (hand + offset) % n = slot ∧ offset ≤ ahead n hand slot := by
  have hpos : 0 < n := Nat.zero_lt_of_lt hh
  rcases Nat.lt_or_ge slot hand with hlt | hge
  · refine ⟨n - hand + slot, by omega, ?_, ?_⟩
    · rw [show hand + (n - hand + slot) = n + slot by omega, Nat.add_mod_left,
        Nat.mod_eq_of_lt hs]
    · rw [ahead, if_neg (by omega)]
  · refine ⟨slot - hand, by omega, ?_, ?_⟩
    · rw [Nat.add_sub_cancel' hge, Nat.mod_eq_of_lt hs]
    · rw [ahead]
      split <;> omega

end Hound.Lib
