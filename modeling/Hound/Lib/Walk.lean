import Mathlib.Data.List.Basic

/-!
# Walks in a tree

A `Move` goes up one level or down to a named child. Where moves lead, seen from where they
begin, is a `Walk`: up so many levels, then down through names. `follow_eq` splits the moves
anywhere: what the later ones lead to by themselves decides how they go on from the earlier.
-/

namespace Hound.Lib

inductive Move (α : Type*) where
  | up
  | down (a : α)

structure Walk (α : Type*) where
  ups : Nat := 0
  names : List α := []

namespace Walk

variable {α : Type*}

def move (w : Walk α) : Move α → Walk α
  | .up =>
    if w.names = [] then { w with ups := w.ups + 1 } else { w with names := w.names.dropLast }
  | .down a => { w with names := w.names ++ [a] }

def follow (w : Walk α) (ms : List (Move α)) : Walk α := ms.foldl move w

/-- Where `v` leads from the end of `w`. -/
def andThen (w v : Walk α) : Walk α where
  ups := w.ups + (v.ups - w.names.length)
  names := w.names.take (w.names.length - v.ups) ++ v.names

theorem andThen_start (w : Walk α) : w.andThen {} = w := by
  simp [andThen]

theorem move_andThen (w v : Walk α) (m : Move α) :
    (w.andThen v).move m = w.andThen (v.move m) := by
  cases m with
  | down a => simp [move, andThen]
  | up =>
    by_cases hv : v.names = []
    · by_cases hle : w.names.length ≤ v.ups
      · have h0 : w.names.length - v.ups = 0 := by omega
        have h1 : w.names.length - (v.ups + 1) = 0 := by omega
        simp only [move, andThen, hv, h0, h1, List.take_zero, List.append_nil, if_true,
          Walk.mk.injEq, and_true]
        omega
      · have hne : w.names.take (w.names.length - v.ups) ≠ [] := by
          rw [← List.length_pos_iff, List.length_take]
          omega
        simp only [move, andThen, hv, List.append_nil, hne, if_false, if_true, Walk.mk.injEq]
        refine ⟨by omega, ?_⟩
        rw [List.dropLast_eq_take, List.take_take, List.length_take]
        congr 1
        omega
    · have hne : w.names.take (w.names.length - v.ups) ++ v.names ≠ [] := by simp [hv]
      simp only [move, andThen, hne, hv, if_false, Walk.mk.injEq, true_and]
      exact List.dropLast_append_of_ne_nil hv

theorem follow_eq (w : Walk α) (ms : List (Move α)) :
    w.follow ms = w.andThen (follow {} ms) := by
  have h : ∀ (ms : List (Move α)) (v : Walk α),
      (w.andThen v).follow ms = w.andThen (v.follow ms) := by
    intro ms
    induction ms with
    | nil => exact fun v => rfl
    | cons m ms ih =>
      intro v
      rw [follow, List.foldl_cons, move_andThen]
      exact ih (v.move m)
  rw [← h, andThen_start]

theorem follow_append (w : Walk α) (ms ns : List (Move α)) :
    w.follow (ms ++ ns) = (w.follow ms).andThen (follow {} ns) := by
  rw [← follow_eq, follow, List.foldl_append]
  rfl

/-- Whether `v` leads from the end of `w` to below the end of `w.andThen t`, when `t` does not
go both up and down: the names that `v` does not go up past are shared. -/
theorem prefix_andThen_iff {w t v : Walk α} (ht : t.ups = 0 ∨ t.names = []) :
    (w.andThen t).names <+: (w.andThen v).names ↔
      (w.andThen t).names.drop (w.names.length - v.ups) <+: v.names := by
  have hlen : (w.names.take (w.names.length - v.ups)).length = w.names.length - v.ups := by
    rw [List.length_take]
    omega
  by_cases hle : t.ups ≤ v.ups
  · have hshared : (w.andThen t).names =
        w.names.take (w.names.length - v.ups) ++
          (w.andThen t).names.drop (w.names.length - v.ups) := by
      conv => lhs; rw [← List.take_append_drop (w.names.length - v.ups) (w.andThen t).names]
      congr 1
      simp only [andThen]
      rw [List.take_append_of_le_length (by rw [List.length_take]; omega), List.take_take,
        Nat.min_eq_left (by omega)]
    conv => lhs; lhs; rw [hshared]
    exact List.prefix_append_right_inj _
  · have hnil : t.names = [] := ht.resolve_left (by omega)
    have hnames : (w.andThen t).names = w.names.take (w.names.length - t.ups) := by
      simp [andThen, hnil]
    refine iff_of_true ?_ ?_
    · rw [hnames]
      refine List.IsPrefix.trans ?_ (List.prefix_append _ _)
      exact List.take_prefix_take_left (by omega)
    · rw [hnames, List.drop_eq_nil_of_le (by rw [List.length_take]; omega)]
      exact List.nil_prefix

end Walk

end Hound.Lib
