import Mathlib.Data.List.Basic
import Mathlib.Data.List.GetD
import Mathlib.Data.List.Nodup

/-!
# Facts about lists

`List.modify` under `countP`, `flatMap` and `flatten`; removing the one element with a key;
lists in which a property holds up to some element and another behind it.
-/

namespace Hound.Lib

variable {α β : Type*}

theorem countP_modify_le (p : α → Bool) (f : α → α) (l : List α) (i : Nat) :
    (l.modify i f).countP p ≤ l.countP p + 1 := by
  induction l generalizing i with
  | nil => simp
  | cons a l ih =>
    cases i with
    | zero =>
      simp only [List.modify_zero_cons, List.countP_cons]
      split <;> split <;> omega
    | succ i =>
      have := ih i
      simp only [List.modify_succ_cons, List.countP_cons]
      omega

theorem map_modify_of_forall {g : α → β} {f : α → α} (h : ∀ a, g (f a) = g a) :
    ∀ (l : List α) (i : Nat), (l.modify i f).map g = l.map g
  | [], _ => by rw [List.modify_nil]
  | a :: l, 0 => by rw [List.modify_zero_cons, List.map_cons, List.map_cons, h]
  | a :: l, i + 1 => by
    rw [List.modify_succ_cons, List.map_cons, List.map_cons, map_modify_of_forall h l i]

theorem modify_congr {f g : α → α} {l : List α} {i : Nat} (h : ∀ a, l[i]? = some a → f a = g a) :
    l.modify i f = l.modify i g := by
  refine List.ext_getElem? fun j => ?_
  rw [List.getElem?_modify, List.getElem?_modify]
  by_cases hij : i = j
  · subst hij
    cases ha : l[i]? with
    | none => rfl
    | some a => simp [h a ha]
  · simp [hij]

theorem forall_mem_modify {P : α → Prop} {f : α → α} {l : List α} {i : Nat} (h : ∀ a ∈ l, P a)
    (hf : ∀ a, l[i]? = some a → P a → P (f a)) : ∀ a ∈ l.modify i f, P a := by
  intro a ha
  obtain ⟨j, hj⟩ := List.mem_iff_getElem?.mp ha
  rw [List.getElem?_modify] at hj
  obtain ⟨b, hb, rfl⟩ := Option.map_eq_some_iff.mp hj
  have hPb : P b := h b (List.mem_of_getElem? hb)
  split
  · next hij => exact hf b (hij ▸ hb) hPb
  · exact hPb

theorem mem_drop_modify {f : α → α} {l : List α} {i n : Nat} {a : α}
    (h : a ∈ (l.modify i f).drop n) : ∃ b ∈ l.drop n, a = b ∨ a = f b := by
  obtain ⟨j, hj⟩ := List.mem_iff_getElem?.mp h
  rw [List.getElem?_drop, List.getElem?_modify] at hj
  obtain ⟨b, hb, hab⟩ := Option.map_eq_some_iff.mp hj
  rw [← List.getElem?_drop] at hb
  refine ⟨b, List.mem_of_getElem? hb, ?_⟩
  rw [← hab]
  split
  · exact .inr rfl
  · exact .inl rfl

/-- The images behind position `i` are empty, so what `f` adds to the image of
element `i` ends the whole. -/
theorem flatMap_modify_append {g : α → List β} {f : α → α} {src : List β} :
    ∀ {l : List α} {i : Nat} (hi : i < l.length), (∀ x ∈ l.drop (i + 1), g x = []) →
      g (f l[i]) = g l[i] ++ src → (l.modify i f).flatMap g = l.flatMap g ++ src
  | a :: l, 0, _, hnil, hf => by
    have : l.flatMap g = [] := List.flatMap_eq_nil_iff.mpr (by simpa using hnil)
    simpa [this] using hf
  | a :: l, i + 1, hi, hnil, hf => by
    have ih := flatMap_modify_append (l := l) (i := i) (by simpa using hi) (by simpa using hnil)
      (by simpa using hf)
    simp [ih]

theorem flatten_modify_concat {a : α} :
    ∀ {l : List (List α)} {i : Nat}, i < l.length →
      (l.modify i (· ++ [a])).flatten.Perm (a :: l.flatten)
  | b :: l, 0, _ => by
    simp only [List.modify_zero_cons, List.flatten_cons, List.append_assoc]
    exact List.perm_middle
  | b :: l, i + 1, hi => by
    have ih := flatten_modify_concat (a := a) (l := l) (i := i) (by simpa using hi)
    simp only [List.modify_succ_cons, List.flatten_cons]
    exact (ih.append_left b).trans List.perm_middle

/-- Where keys are distinct, erasing the first element with key `k` leaves those without it. -/
theorem eraseP_eq_filter_of_nodup [DecidableEq β] {key : α → β} {k : β} :
    ∀ {l : List α}, (l.map key).Nodup → l.eraseP (key · = k) = l.filter (key · ≠ k)
  | [], _ => rfl
  | a :: l, h => by
    obtain ⟨ha, hl⟩ := List.nodup_cons.mp h
    by_cases hk : key a = k
    · have hne : ∀ b ∈ l, key b ≠ k := fun b hb hbk =>
        ha (List.mem_map.mpr ⟨b, hb, hbk.trans hk.symm⟩)
      rw [List.eraseP_cons_of_pos (by simpa using hk), List.filter_cons_of_neg (by simpa using hk),
        List.filter_eq_self.mpr (by simpa using hne)]
    · simp [hk, eraseP_eq_filter_of_nodup hl]

/-- Where keys are distinct, a key that occurs is the key of one element. -/
theorem map_filter_key_of_nodup [DecidableEq β] {key : α → β} {l : List α} {k : β}
    (h : (l.map key).Nodup) (hk : k ∈ l.map key) : (l.filter (key · = k)).map key = [k] := by
  have hmap : (l.map key).filter (· = k) = (l.filter (key · = k)).map key := List.filter_map
  rw [← hmap, List.filter_eq, List.count_eq_one_of_mem h hk, List.replicate_one]

/-- A list in which `q` holds behind every element without `p`: `p` holds up to some element,
and `q` behind it. -/
theorem pairwise_or_iff {p q : α → Prop} {l : List α} :
    l.Pairwise (fun a b => p a ∨ q b) ↔
      ∃ front back, l = front ++ back ∧ (∀ a ∈ front, p a) ∧
        ∀ a more, back = a :: more → ¬ p a ∧ ∀ b ∈ more, q b := by
  constructor
  · intro h
    induction l with
    | nil => exact ⟨[], [], rfl, by simp, by simp⟩
    | cons a l ih =>
      obtain ⟨ha, hl⟩ := List.pairwise_cons.mp h
      by_cases hp : p a
      · obtain ⟨front, back, rfl, hfront, hback⟩ := ih hl
        exact ⟨a :: front, back, rfl, List.forall_mem_cons.mpr ⟨hp, hfront⟩, hback⟩
      · refine ⟨[], a :: l, rfl, by simp, fun b more he => ?_⟩
        cases he
        exact ⟨hp, fun b hb => (ha b hb).resolve_left hp⟩
  · rintro ⟨front, back, rfl, hfront, hback⟩
    refine List.pairwise_append.mpr ⟨?_, ?_, fun a ha b _ => .inl (hfront a ha)⟩
    · exact List.pairwise_of_forall_mem_list fun a ha b _ => .inl (hfront a ha)
    · cases back with
      | nil => exact .nil
      | cons a more =>
        have hq := (hback a more rfl).2
        refine List.pairwise_cons.mpr ⟨fun b hb => .inr (hq b hb), ?_⟩
        exact List.pairwise_of_forall_mem_list fun _ _ b hb => .inr (hq b hb)

end Hound.Lib
