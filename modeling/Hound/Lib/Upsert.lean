import Mathlib.Data.List.Basic

/-!
# Lists as keyed stores

`upsert` changes the first element with a key, or appends one that has it: what a linear
scan over a growing list of children does. Looking a key up sees the change at that key
and nowhere else, and the keys grow by at most the one at the end.
-/

namespace Hound.Lib

variable {α β : Type*} [DecidableEq β]

def upsert (key : α → β) (k : β) (f : α → α) (new : α) (l : List α) : List α :=
  match l.findIdx? (key · = k) with
  | some i => l.modify i f
  | none => l ++ [new]

/-- The list with `a` at the end, if it is not there yet. -/
def insertEnd (l : List β) (a : β) : List β := if a ∈ l then l else l ++ [a]

variable {key : α → β} {k : β} {f : α → α} {new : α} {l : List α}

theorem upsert_cons_self {a : α} (h : key a = k) : upsert key k f new (a :: l) = f a :: l := by
  simp [upsert, List.findIdx?_cons, h]

theorem upsert_cons_ne {a : α} (h : key a ≠ k) :
    upsert key k f new (a :: l) = a :: upsert key k f new l := by
  simp only [upsert, List.findIdx?_cons, h, decide_false, Bool.false_eq_true, ↓reduceIte]
  cases l.findIdx? (key · = k) <;> rfl

theorem find?_upsert_self (hf : ∀ a, key (f a) = key a) (hnew : key new = k) :
    ∀ l : List α, (upsert key k f new l).find? (key · = k) =
      some (((l.find? (key · = k)).map f).getD new)
  | [] => by simp [upsert, hnew]
  | a :: l => by
    by_cases h : key a = k
    · rw [upsert_cons_self h]
      simp [hf, h]
    · rw [upsert_cons_ne h]
      simpa [h] using find?_upsert_self hf hnew l

theorem find?_upsert_ne (hf : ∀ a, key (f a) = key a) (hnew : key new = k) {k' : β}
    (hk : k' ≠ k) :
    ∀ l : List α, (upsert key k f new l).find? (key · = k') = l.find? (key · = k')
  | [] => by simp [upsert, hnew, hk.symm]
  | a :: l => by
    by_cases h : key a = k
    · rw [upsert_cons_self h]
      simp [hf, h, hk.symm]
    · rw [upsert_cons_ne h]
      simp [List.find?_cons, find?_upsert_ne hf hnew hk l]

theorem map_key_upsert (hf : ∀ a, key (f a) = key a) (hnew : key new = k) :
    ∀ l : List α, (upsert key k f new l).map key = insertEnd (l.map key) k
  | [] => by simp [upsert, insertEnd, hnew]
  | a :: l => by
    by_cases h : key a = k
    · rw [upsert_cons_self h]
      simp [insertEnd, hf, h]
    · rw [upsert_cons_ne h, List.map_cons, map_key_upsert hf hnew l]
      simp only [insertEnd, List.map_cons, List.mem_cons, Ne.symm h, false_or]
      split <;> rfl

theorem forall_mem_upsert {P : α → Prop} (hl : ∀ a ∈ l, P a) (hf : ∀ a ∈ l, P (f a))
    (hnew : P new) : ∀ a ∈ upsert key k f new l, P a := by
  induction l with
  | nil => simpa [upsert] using hnew
  | cons b l ih =>
    rw [List.forall_mem_cons] at hl hf
    by_cases h : key b = k
    · rw [upsert_cons_self h, List.forall_mem_cons]
      exact ⟨hf.1, hl.2⟩
    · rw [upsert_cons_ne h, List.forall_mem_cons]
      exact ⟨hl.1, ih hl.2 hf.2⟩

/-! ## The keys -/

theorem nodup_insertEnd {l : List β} {a : β} (h : l.Nodup) : (insertEnd l a).Nodup := by
  unfold insertEnd
  split
  · exact h
  · next ha =>
    rw [List.nodup_append]
    refine ⟨h, by simp, ?_⟩
    intro b hb c hc
    rw [List.mem_singleton] at hc
    subst hc
    exact fun hbc => ha (hbc ▸ hb)

theorem find?_insertEnd (p : β → Bool) (l : List β) (a : β) :
    (insertEnd l a).find? p = (l ++ [a]).find? p := by
  unfold insertEnd
  split
  · next ha =>
    rw [List.find?_append]
    cases h : l.find? p with
    | some b => rfl
    | none => simp [List.find?_eq_none.mp h a ha]
  · rfl

theorem find?_foldl_insertEnd (p : β → Bool) :
    ∀ l acc : List β, (l.foldl insertEnd acc).find? p = (acc ++ l).find? p
  | [], acc => by simp
  | a :: l, acc => by
    rw [List.foldl_cons, find?_foldl_insertEnd p l, List.find?_append, find?_insertEnd,
      ← List.find?_append, List.append_assoc, List.singleton_append]

/-- Where keys are distinct, looking up the key of a member finds that member. -/
theorem find?_key_eq_of_mem :
    ∀ {l : List α} {a : α}, (l.map key).Nodup → a ∈ l → l.find? (key · = key a) = some a
  | b :: l, a, h, ha => by
    obtain ⟨hb, hl⟩ := List.nodup_cons.mp h
    rcases List.mem_cons.mp ha with rfl | ha
    · simp
    · have hne : key b ≠ key a := fun hab => hb (hab ▸ List.mem_map_of_mem ha)
      simpa [hne] using find?_key_eq_of_mem hl ha

end Hound.Lib
