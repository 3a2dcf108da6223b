import Mathlib.Data.List.Basic

/-!
# Incremental consumers

A `Consumer` reads a list piecewise: a step gets a window, the front of what is left
of the list, and says how much of it was consumed. `run` is the one-shot run, in
which every step gets all that is left. `Segmented` is a run whose windows are any
prefixes of what is left.

`Incremental` is the law that makes the two agree: a step on a longer window either
does what the step on the shorter one does, or does that and then goes on as one
more step would. `Segmented.run_eq` is the consequence: at every point of a segmented
run, the one-shot run from there completes to the one-shot run from the start.
-/

namespace Hound.Lib

structure Consumer (σ α : Type*) where
  step : σ → List α → σ × Nat
  halted : σ → Bool

namespace Consumer

variable {σ α : Type*} (M : Consumer σ α)

/-- A result after `n` elements that were consumed before it. -/
def shift (n : Nat) (r : σ × Nat) : σ × Nat := (r.1, n + r.2)

@[simp] theorem shift_fst (n : Nat) (r : σ × Nat) : (shift n r).1 = r.1 := rfl

@[simp] theorem shift_snd (n : Nat) (r : σ × Nat) : (shift n r).2 = n + r.2 := rfl

@[simp] theorem shift_zero (r : σ × Nat) : shift 0 r = r := by simp [shift]

theorem shift_shift (m n : Nat) (r : σ × Nat) : shift m (shift n r) = shift (m + n) r := by
  simp [shift, Nat.add_assoc]

/-- The one-shot run. It stops when the consumer has halted, nothing is left, or a
step consumed nothing. -/
def run (s : σ) (rest : List α) : σ × Nat :=
  if M.halted s ∨ rest = [] then (s, 0)
  else if (M.step s rest).2 = 0 then M.step s rest
  else shift (M.step s rest).2 (run (M.step s rest).1 (rest.drop (M.step s rest).2))
termination_by rest.length
decreasing_by
  have : 0 < rest.length := List.length_pos_iff.mpr (by tauto)
  simp only [List.length_drop]
  omega

/-- The law, for states that satisfy `I`. -/
structure Incremental (I : σ → Prop) : Prop where
  keep : ∀ {s : σ} (w : List α), I s → M.halted s = false → I (M.step s w).1
  le : ∀ {s : σ} (w : List α), I s → M.halted s = false → (M.step s w).2 ≤ w.length
  idle : ∀ {s : σ} {w : List α}, I s → M.halted s = false → (M.step s w).2 = 0 →
    (M.step s w).1 = s ∨ M.halted (M.step s w).1 = true
  split : ∀ {s : σ} (w x : List α), I s → M.halted s = false →
    M.step s (w ++ x) = M.step s w ∨
    (M.halted (M.step s w).1 = false ∧ M.step (M.step s w).1 [] = ((M.step s w).1, 0) ∧
      M.step s (w ++ x) =
        shift (M.step s w).2 (M.step (M.step s w).1 ((w ++ x).drop (M.step s w).2)))

variable {M}

theorem run_halted {s : σ} (h : M.halted s = true) (rest : List α) : M.run s rest = (s, 0) := by
  rw [run, if_pos (.inl h)]

theorem run_nil (s : σ) : M.run s [] = (s, 0) := by rw [run, if_pos (.inr rfl)]

theorem run_idle {s : σ} {rest : List α} (hs : M.halted s = false) (hr : rest ≠ [])
    (h0 : (M.step s rest).2 = 0) : M.run s rest = M.step s rest := by
  rw [run, if_neg (by simp [hs, hr]), if_pos h0]

theorem run_advance {s : σ} {rest : List α} (hs : M.halted s = false) (hr : rest ≠ [])
    (h0 : (M.step s rest).2 ≠ 0) :
    M.run s rest =
      shift (M.step s rest).2 (M.run (M.step s rest).1 (rest.drop (M.step s rest).2)) := by
  rw [run, if_neg (by simp [hs, hr]), if_neg h0]

namespace Incremental

variable {I : σ → Prop}

/-- **One step on any window.** The one-shot run from the state it leaves completes
to the one-shot run from the state it started in. -/
theorem run_step (L : M.Incremental I) {s : σ} (hI : I s) (hs : M.halted s = false)
    (w x : List α) (hne : w ++ x ≠ []) :
    M.run s (w ++ x) =
      shift (M.step s w).2 (M.run (M.step s w).1 ((w ++ x).drop (M.step s w).2)) := by
  rcases L.split w x hI hs with he | ⟨hnh, hnil, he⟩
  · by_cases h0 : (M.step s w).2 = 0
    · rcases L.idle hI hs h0 with hsame | hhalt
      · rw [h0, hsame]; simp
      · rw [run_idle hs hne (by rw [he]; exact h0), he, run_halted hhalt, h0]
        exact Prod.ext rfl h0
    · rw [run_advance hs hne (by rw [he]; exact h0), he]
  · -- the longer window does the step on `w`, then one more step on what that left
    generalize hr1 : M.step s w = r1 at he hnh hnil ⊢
    have hI1 : I r1.1 := hr1 ▸ L.keep w hI hs
    generalize hrest : (w ++ x).drop r1.2 = rest1 at he ⊢
    by_cases hrest1 : rest1 = []
    · subst hrest1
      rw [hnil] at he
      rw [run_nil]
      by_cases h0 : r1.2 = 0
      · rw [run_idle hs hne (by rw [he]; simpa using h0), he]
      · rw [run_advance hs hne (by rw [he]; simpa using h0), he]
        simp [hrest, run_nil]
    · by_cases h2 : (M.step r1.1 rest1).2 = 0
      · rw [run_idle hnh hrest1 h2]
        by_cases h0 : r1.2 = 0
        · rw [run_idle hs hne (by rw [he]; simp [h0, h2]), he]
        · rw [run_advance hs hne (by rw [he]; simp [h0, h2]), he]
          simp only [shift_fst, shift_snd, h2, Nat.add_zero, hrest]
          rcases L.idle hI1 hnh h2 with hsame | hhalt
          · rw [hsame, run_idle hnh hrest1 h2]
          · rw [run_halted hhalt]; simp [shift, h2]
      · rw [run_advance hnh hrest1 h2,
          run_advance hs hne (by rw [he]; simp only [shift_snd]; omega), he, shift_shift]
        simp only [shift_fst, shift_snd, ← hrest, List.drop_drop]

theorem run_keep (L : M.Incremental I) {s : σ} {w : List α} (hI : I s) : I (M.run s w).1 := by
  fun_induction run M s w with
  | case1 => exact hI
  | case2 s w hgo => exact L.keep w hI (by simp_all)
  | case3 s w hgo _ ih => exact ih (L.keep w hI (by simp_all))

theorem run_le (L : M.Incremental I) {s : σ} {w : List α} (hI : I s) :
    (M.run s w).2 ≤ w.length := by
  fun_induction run M s w with
  | case1 => exact Nat.zero_le _
  | case2 s w hgo => exact L.le w hI (by simp_all)
  | case3 s w hgo _ ih =>
    have hle := L.le w hI (by simp_all)
    have := ih (L.keep w hI (by simp_all))
    rw [List.length_drop] at this
    rw [shift_snd]
    omega

/-- Where a run ends: halted, with nothing left, or waiting for more. -/
theorem run_end (L : M.Incremental I) {s : σ} {w : List α} (hI : I s) :
    M.halted (M.run s w).1 = true ∨ w.drop (M.run s w).2 = [] ∨
      M.step (M.run s w).1 (w.drop (M.run s w).2) = ((M.run s w).1, 0) := by
  fun_induction run M s w with
  | case1 s w hstop => exact hstop.imp id .inl
  | case2 s w hgo h0 =>
    rcases L.idle hI (by simp_all) h0 with hsame | hhalt
    · rw [h0, List.drop_zero, hsame]
      exact .inr (.inr (Prod.ext hsame h0))
    · exact .inl hhalt
  | case3 s w hgo _ ih =>
    rw [shift_fst, shift_snd, ← List.drop_drop]
    exact ih (L.keep w hI (by simp_all))

/-- **A run can be interrupted.** The run on the front of a list, continued from where
it ended, is the run on the list. -/
theorem run_append (L : M.Incremental I) {s : σ} {w : List α} (hI : I s) (x : List α) :
    M.run s (w ++ x) =
      shift (M.run s w).2 (M.run (M.run s w).1 ((w ++ x).drop (M.run s w).2)) := by
  fun_induction run M s w with
  | case1 s w hstop => rcases hstop with hs | rfl <;> simp
  | case2 s w hgo h0 =>
    exact L.run_step hI (by simp_all) w x (by simp_all)
  | case3 s w hgo _ ih =>
    have hs : M.halted s = false := by simp_all
    have hle := L.le w hI hs
    rw [L.run_step hI hs w x (by simp_all), List.drop_append_of_le_length hle,
      ih (L.keep w hI hs), shift_shift, shift_fst, shift_snd, ← List.drop_drop,
      List.drop_append_of_le_length hle]

end Incremental

variable (M) in
/-- A segmented run from `s`: it ends in `s'` with `n` elements of `rest` consumed.
Steps are made while something is left, each on a prefix of what is left. -/
inductive Segmented : σ → List α → σ → Nat → Prop where
  | refl (s : σ) (rest : List α) : Segmented s rest s 0
  | step {s s' : σ} {rest w : List α} {n : Nat} (hs : M.halted s = false) (hne : rest ≠ [])
      (hw : w <+: rest)
      (h : Segmented (M.step s w).1 (rest.drop (M.step s w).2) s' n) :
      Segmented s rest s' ((M.step s w).2 + n)

namespace Segmented

variable {I : σ → Prop} {s s' : σ} {rest : List α} {n : Nat}

theorem keep (L : M.Incremental I) (h : M.Segmented s rest s' n) (hI : I s) : I s' := by
  induction h with
  | refl => exact hI
  | step hs _ _ _ ih => exact ih (L.keep _ hI hs)

theorem snoc {w : List α} (h : M.Segmented s rest s' n) (hs : M.halted s' = false)
    (hne : rest.drop n ≠ []) (hw : w <+: rest.drop n) :
    M.Segmented s rest (M.step s' w).1 (n + (M.step s' w).2) := by
  induction h with
  | refl => rw [Nat.zero_add]; exact .step hs hne hw (.refl _ _)
  | step hs1 hne1 hw1 _ ih =>
    rw [← List.drop_drop] at hne hw
    rw [Nat.add_assoc]
    exact .step hs1 hne1 hw1 (ih hs hne hw)

/-- **Segmentation does not matter.** -/
theorem run_eq (L : M.Incremental I) (h : M.Segmented s rest s' n) (hI : I s) :
    M.run s rest = shift n (M.run s' (rest.drop n)) := by
  induction h with
  | refl => simp
  | @step s s' rest w n hs hne hw _ ih =>
    obtain ⟨x, rfl⟩ := hw
    rw [L.run_step hI hs w x hne, ih (L.keep w hI hs), shift_shift, List.drop_drop]

theorem run_of_halted (L : M.Incremental I) (h : M.Segmented s rest s' n) (hI : I s)
    (hs : M.halted s' = true) : M.run s rest = (s', n) := by
  rw [h.run_eq L hI, run_halted hs]; rfl

/-- So does one whose last step got all that was left and consumed nothing. -/
theorem run_of_idle (L : M.Incremental I) (h : M.Segmented s rest s' n) (hI : I s)
    (hs : M.halted s' = false) (hne : rest.drop n ≠ [])
    (h0 : (M.step s' (rest.drop n)).2 = 0) :
    M.run s rest = ((M.step s' (rest.drop n)).1, n) := by
  rw [h.run_eq L hI, run_idle hs hne h0]
  exact Prod.ext rfl (by simp [h0])

end Segmented

end Consumer

end Hound.Lib
