import Hound.Lib.Search

/-!
# Lines and a blank line behind them

Lines are separated by the two elements `a`, `b`, and a text ends in a blank line. If no line
holds an `a`, and none behind the first is empty, then the first `[a, b, a, b]` is the end of the
last line (`firstAt_blank`): whatever follows, the text and what follows it can be told
apart.
-/

namespace Hound.Lib

variable {α : Type*} {a b : α} {l l' : List α} {ls : List (List α)}

theorem flatMap_append_sep (sep : List α) :
    ∀ (l : List α) (ls : List (List α)),
      (l :: ls).flatMap (· ++ sep) = sep.intercalate (l :: ls) ++ sep
  | l, [] => by simp
  | l, l' :: ls => by
    have ih := flatMap_append_sep sep l' ls
    rw [List.flatMap_cons, ih, List.intercalate_cons_cons]
    simp only [List.append_assoc]

/-- What begins with an `a` does not begin inside a list without one. -/
theorem not_prefix_inside (h : a ∉ l) (u r : List α) {j : Nat} (hj : j < l.length) :
    ¬ a :: u <+: (l ++ r).drop j := by
  intro hp
  rw [List.drop_append_of_le_length (Nat.le_of_lt hj), List.drop_eq_getElem_cons hj,
    List.cons_append, List.cons_prefix_cons] at hp
  exact h (hp.1 ▸ List.getElem_mem hj)

theorem firstAt_blank (hab : a ≠ b) (body : List α) :
    ∀ {l : List α} {ls : List (List α)}, a ∉ l → (∀ m ∈ ls, m ≠ [] ∧ a ∉ m) →
      FirstAt [a, b, a, b] ([a, b].intercalate (l :: ls) ++ ([a, b, a, b] ++ body))
        ([a, b].intercalate (l :: ls)).length
  | l, [], hl, _ => by
    have hhere : FirstAt [a, b, a, b] ([a, b, a, b] ++ body) 0 :=
      ⟨List.prefix_append _ _, fun j hj => absurd hj (Nat.not_lt_zero j)⟩
    rw [List.intercalate_singleton]
    exact FirstAt.behind (fun j hj => not_prefix_inside hl _ _ hj) hhere
  | l, l' :: ls, hl, hls => by
    obtain ⟨⟨hne, hl'⟩, hrest⟩ := List.forall_mem_cons.mp hls
    have ih := firstAt_blank hab body hl' hrest
    rw [List.intercalate_cons_cons, List.append_assoc, List.length_append]
    refine FirstAt.behind (fun j hj => ?_) ih
    rw [List.length_append] at hj
    rw [List.append_assoc]
    rcases Nat.lt_trichotomy j l.length with hlt | rfl | hgt
    · exact not_prefix_inside hl _ _ hlt
    · -- a line end is not followed by another one, for the next line is not empty
      rw [List.drop_left]
      intro hp
      obtain ⟨x, xs, rfl⟩ := List.exists_cons_of_ne_nil hne
      rw [List.intercalate_cons_cons_left] at hp
      simp only [List.cons_append, List.nil_append, List.cons_prefix_cons, true_and] at hp
      exact hl' (hp.1 ▸ List.mem_cons_self)
    · have hj' : j = l.length + 1 := by
        simp only [List.length_cons, List.length_nil] at hj
        omega
      rw [hj', List.drop_length_add_append]
      intro hp
      simp only [List.cons_append, List.drop_succ_cons, List.drop_zero, List.nil_append,
        List.cons_prefix_cons] at hp
      exact hab hp.1

end Hound.Lib
