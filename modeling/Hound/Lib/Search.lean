import Mathlib.Data.List.Basic

/-!
# Searching a list from the left

`List.idxOf?` for one element and `findPair` for two adjacent ones. A hit stays a
hit when the list is extended on the right (`findPair_append`): a search that found
its target never looks at what comes later.
-/

namespace Hound.Lib

variable {α : Type*} [DecidableEq α]

theorem idxOf?_append_cons {a : α} : ∀ {l : List α} (r : List α), a ∉ l →
    (l ++ a :: r).idxOf? a = some l.length
  | [], r, _ => by simp [List.idxOf?_cons]
  | x :: l, r, h => by
    have hx : (x == a) = false := by simpa using fun e : x = a => h (by simp [e])
    have ih := idxOf?_append_cons (l := l) r fun hm => h (List.mem_cons_of_mem _ hm)
    rw [List.cons_append, List.idxOf?_cons, hx, ih]
    rfl

omit [DecidableEq α] in
theorem dropWhile_append_cons {p : α → Bool} {b : α} {t : List α} :
    ∀ {l : List α}, l.dropWhile p = b :: t → ∀ x, (l ++ x).dropWhile p = b :: t ++ x
  | a :: l, h, x => by
    rw [List.cons_append, List.dropWhile_cons] at *
    split at h
    · next ha => rw [if_pos ha]; exact dropWhile_append_cons h x
    · next ha => rw [if_neg ha]; exact congrArg (· ++ x) h

/-! ## The first occurrence of a list -/

section FirstAt

omit [DecidableEq α]

/-- `u` occurs in `l` at `i` and at no smaller offset. -/
structure FirstAt (u l : List α) (i : Nat) : Prop where
  here : u <+: l.drop i
  before : ∀ j < i, ¬ u <+: l.drop j

variable {u l r : List α} {i j : Nat}

theorem FirstAt.unique (hi : FirstAt u l i) (hj : FirstAt u l j) : i = j := by
  rcases Nat.lt_trichotomy i j with h | h | h
  · exact absurd hi.here (hj.before i h)
  · exact h
  · exact absurd hj.here (hi.before j h)

/-- Without an occurrence that begins in `l`, the first one in `r` is the first of all. -/
theorem FirstAt.behind (hl : ∀ j < l.length, ¬ u <+: (l ++ r).drop j) (h : FirstAt u r i) :
    FirstAt u (l ++ r) (l.length + i) := by
  refine ⟨?_, fun j hj => ?_⟩
  · rw [List.drop_length_add_append]
    exact h.here
  · rcases Nat.lt_or_ge j l.length with hlt | hge
    · exact hl j hlt
    · obtain ⟨k, rfl⟩ := Nat.exists_eq_add_of_le hge
      rw [List.drop_length_add_append]
      exact h.before k (by omega)

theorem prefix_drop_le (hu : u ≠ []) (h : u <+: l.drop i) : i + u.length ≤ l.length := by
  have hlen := h.length_le
  have hpos := List.length_pos_iff.mpr hu
  rw [List.length_drop] at hlen
  omega

theorem prefix_drop_append (h : j + u.length ≤ l.length) (r : List α) :
    u <+: (l ++ r).drop j ↔ u <+: l.drop j := by
  rw [List.drop_append_of_le_length (by omega)]
  constructor
  · intro hp
    exact List.prefix_of_prefix_length_le hp (List.prefix_append _ r)
      (by rw [List.length_drop]; omega)
  · exact fun hp => hp.trans (List.prefix_append _ r)

theorem FirstAt.append (hu : u ≠ []) (h : FirstAt u l i) (r : List α) : FirstAt u (l ++ r) i := by
  have hin := prefix_drop_le hu h.here
  refine ⟨(prefix_drop_append hin r).mpr h.here, fun j hj hp => ?_⟩
  exact h.before j hj ((prefix_drop_append (by omega) r).mp hp)

/-- Compare with the first part as far as it goes, and with the second from there. -/
theorem prefix_append_iff (u l r : List α) :
    u <+: l ++ r ↔ u.take (min u.length l.length) = l.take (min u.length l.length) ∧
      u.drop (min u.length l.length) <+: r := by
  rcases Nat.le_total u.length l.length with h | h
  · rw [Nat.min_eq_left h, List.take_length, List.drop_length, List.prefix_iff_eq_take,
      List.take_append_of_le_length h]
    exact (and_iff_left List.nil_prefix).symm
  · rw [Nat.min_eq_right h, List.take_length]
    constructor
    · intro hp
      have htake : u.take l.length = l := by
        have hl := List.prefix_of_prefix_length_le (List.take_prefix l.length u |>.trans hp)
          (List.prefix_append l r) (by rw [List.length_take]; omega)
        exact hl.eq_of_length (by rw [List.length_take]; omega)
      have hsplit : l ++ u.drop l.length = u := by
        conv_rhs => rw [← List.take_append_drop l.length u, htake]
      refine ⟨htake, (List.prefix_append_right_inj l).mp ?_⟩
      rw [hsplit]
      exact hp
    · rintro ⟨htake, hdrop⟩
      rw [← List.take_append_drop l.length u, htake]
      exact (List.prefix_append_right_inj l).mpr hdrop

theorem mem_of_singleton_prefix {a : α} (h : [a] <+: l.drop i) : a ∈ l :=
  List.mem_of_mem_drop (h.subset List.mem_cons_self)

end FirstAt

theorem firstAt_singleton {a : α} {l : List α} {i : Nat} (h : l.idxOf? a = some i) :
    FirstAt [a] l i := by
  obtain ⟨hi, hget, hbefore⟩ := List.idxOf?_eq_some_iff.mp h
  refine ⟨⟨l.drop (i + 1), ?_⟩, fun j hj hp => ?_⟩
  · rw [List.drop_eq_getElem_cons hi, hget]
    rfl
  · have hjl := prefix_drop_le (List.cons_ne_nil a []) hp
    rw [List.drop_eq_getElem_cons (show j < l.length by omega), List.cons_prefix_cons] at hp
    exact hbefore j hj hp.1.symm

/-- The position of the first `a` that is directly followed by `b`. -/
def findPair (a b : α) : List α → Option Nat
  | x :: y :: l => if x = a ∧ y = b then some 0 else (findPair a b (y :: l)).map (· + 1)
  | _ => none

variable {a b : α}

@[simp] theorem findPair_nil : findPair a b [] = none := rfl

@[simp] theorem findPair_singleton (x : α) : findPair a b [x] = none := rfl

theorem findPair_cons_cons (x y : α) (l : List α) :
    findPair a b (x :: y :: l) =
      if x = a ∧ y = b then some 0 else (findPair a b (y :: l)).map (· + 1) := rfl

theorem findPair_lt : ∀ {l : List α} {i : Nat}, findPair a b l = some i → i + 2 ≤ l.length
  | x :: y :: l, i, h => by
    rw [findPair_cons_cons] at h
    split at h
    · cases h; simp
    · obtain ⟨j, hj, rfl⟩ := Option.map_eq_some_iff.mp h
      have := findPair_lt hj
      simp only [List.length_cons] at *
      omega
  | [], _, h => nomatch h
  | [_], _, h => nomatch h

theorem findPair_split : ∀ {l : List α} {i : Nat}, findPair a b l = some i →
    l = l.take i ++ a :: b :: l.drop (i + 2)
  | x :: y :: l, i, h => by
    rw [findPair_cons_cons] at h
    split at h
    · next hxy =>
      cases h
      simp [hxy.1, hxy.2]
    · obtain ⟨j, hj, rfl⟩ := Option.map_eq_some_iff.mp h
      have ih := findPair_split hj
      rw [List.take_succ_cons, List.cons_append, show j + 1 + 2 = j + 2 + 1 by omega,
        List.drop_succ_cons, ← ih]
  | [], _, h => nomatch h
  | [_], _, h => nomatch h

theorem findPair_append : ∀ {l : List α} {i : Nat}, findPair a b l = some i →
    ∀ r, findPair a b (l ++ r) = some i
  | x :: y :: l, i, h, r => by
    rw [findPair_cons_cons] at h
    rw [List.cons_append, List.cons_append, findPair_cons_cons]
    split at h
    · next hc => rw [if_pos hc]; exact h
    · next hc =>
      obtain ⟨j, hj, rfl⟩ := Option.map_eq_some_iff.mp h
      have ih := findPair_append hj r
      rw [List.cons_append] at ih
      rw [if_neg hc, ih]
      rfl
  | [], _, h, _ => nomatch h
  | [_], _, h, _ => nomatch h

/-- Without an `a` in front of it, the pair is found where it stands. -/
theorem findPair_of_notMem : ∀ {l : List α} (r : List α), a ∉ l →
    findPair a b (l ++ a :: b :: r) = some l.length
  | [], r, _ => if_pos ⟨rfl, rfl⟩
  | x :: l, r, h => by
    have hx : ¬ (x = a) := fun e => h (by simp [e])
    have ih := findPair_of_notMem (l := l) r fun hm => h (List.mem_cons_of_mem _ hm)
    obtain ⟨y, t, hy⟩ : ∃ y t, l ++ a :: b :: r = y :: t := by
      cases l with
      | nil => exact ⟨a, b :: r, rfl⟩
      | cons y l => exact ⟨y, l ++ a :: b :: r, rfl⟩
    rw [List.cons_append, hy, findPair_cons_cons, if_neg (fun hc => hx hc.1), ← hy, ih]
    rfl

/-- Behind a list without the pair it is found where it stands, even if the list ends in `a`. -/
theorem findPair_of_none (hab : a ≠ b) : ∀ {l : List α} (r : List α), findPair a b l = none →
    findPair a b (l ++ a :: b :: r) = some l.length
  | [], r, _ => if_pos ⟨rfl, rfl⟩
  | [x], r, _ => by
    rw [List.singleton_append, findPair_cons_cons, if_neg fun h => hab h.2, findPair_cons_cons,
      if_pos ⟨rfl, rfl⟩]
    rfl
  | x :: y :: l, r, h => by
    rw [findPair_cons_cons] at h
    split at h
    · cases h
    · next hxy =>
      have ih := findPair_of_none hab (l := y :: l) r (Option.map_eq_none_iff.mp h)
      rw [List.cons_append] at ih
      rw [List.cons_append, List.cons_append, findPair_cons_cons, if_neg hxy, ih]
      rfl

/-- A list without `a` in which at most the last element is `a` holds no pair. -/
theorem findPair_eq_none_of_notMem : ∀ {l : List α}, a ∉ l → findPair a b l = none
  | x :: y :: l, h => by
    have hx : ¬ (x = a) := fun e => h (by simp [e])
    rw [findPair_cons_cons, if_neg (fun hc => hx hc.1),
      findPair_eq_none_of_notMem fun hm => h (List.mem_cons_of_mem _ hm)]
    rfl
  | [], _ => rfl
  | [_], _ => rfl

omit [DecidableEq α] in
theorem find?_eq_some_idxOf [BEq α] [LawfulBEq α] {p : α → Bool} :
    ∀ {l : List α} {a : α}, l.find? p = some a →
      a ∈ l ∧ p a = true ∧ ∀ b ∈ l, p b = true → b ≠ a → l.idxOf a < l.idxOf b
  | c :: l, a, h => by
    by_cases hc : p c = true
    · rw [List.find?_cons_of_pos hc, Option.some.injEq] at h
      subst h
      refine ⟨List.mem_cons_self, hc, fun b _ _ hne => ?_⟩
      rw [List.idxOf_cons_self, List.idxOf_cons_ne _ hne.symm]
      exact Nat.succ_pos _
    · rw [List.find?_cons_of_neg hc] at h
      obtain ⟨hmem, ha, hfirst⟩ := find?_eq_some_idxOf h
      have hca : c ≠ a := fun hca => hc (hca ▸ ha)
      refine ⟨List.mem_cons_of_mem _ hmem, ha, fun b hb hpb hne => ?_⟩
      have hcb : c ≠ b := fun hcb => hc (hcb ▸ hpb)
      have := hfirst b ((List.mem_cons.mp hb).resolve_left hcb.symm) hpb hne
      rw [List.idxOf_cons_ne _ hca, List.idxOf_cons_ne _ hcb]
      exact Nat.succ_lt_succ this

end Hound.Lib
