import Mathlib.Data.List.AList
import Mathlib.Data.Set.Insert

/-!
# Who holds what is alive

A `Ledger` is a set of things that are alive and the list of those that someone holds. It is
`Sound` if each is held once and alive. `Moves C l l'`: from `l` to `l'` soundness is
kept, and nothing is lost on the way exactly if `C`. Passing a thing on, making one
and ending one lose nothing (`Moves.pass`, `create`, `finish`), letting one go always loses it
(`Moves.drop`), and moves compose (`Moves.trans`, `andThen`). The holders may be the
values of a map (`held`).
-/

namespace Hound.Lib

structure Ledger (α : Type*) where
  live : Set α
  held : List α

namespace Ledger

variable {α : Type*} {l l' l'' : Ledger α} {a : α}

/-- Everything held is alive and held once. -/
structure Sound (l : Ledger α) : Prop where
  nodup : l.held.Nodup
  alive : ∀ a ∈ l.held, a ∈ l.live

/-- Everything alive is held. -/
def NoneLost (l : Ledger α) : Prop := ∀ a ∈ l.live, a ∈ l.held

/-- From `l` to `l'`, nothing is lost exactly if `C`. -/
def Moves (C : Prop) (l l' : Ledger α) : Prop :=
  l.Sound → l'.Sound ∧ (l'.NoneLost ↔ l.NoneLost ∧ C)

theorem Moves.of_sound {C : Prop} (h : l.Sound → Moves C l l') : Moves C l l' :=
  fun hl => h hl hl

theorem Moves.trans {C D : Prop} (h : Moves C l l') (h' : Moves D l' l'') :
    Moves (C ∧ D) l l'' := by
  intro hl
  obtain ⟨hl', hiff⟩ := h hl
  obtain ⟨hl'', hiff'⟩ := h' hl'
  refine ⟨hl'', ?_⟩
  rw [hiff', hiff, and_assoc]

theorem Moves.pass (hlive : l'.live = l.live) (hheld : l'.held.Perm l.held) :
    Moves True l l' := by
  intro hl
  refine ⟨⟨hheld.nodup_iff.mpr hl.nodup, fun a ha => ?_⟩, ?_⟩
  · rw [hlive]
    exact hl.alive a (hheld.mem_iff.mp ha)
  · simp only [NoneLost, hlive, hheld.mem_iff, and_true]

theorem Moves.create (hlive : l'.live = insert a l.live) (ha : a ∉ l.live)
    (hheld : l'.held.Perm (a :: l.held)) : Moves True l l' := by
  intro hl
  refine ⟨⟨?_, fun b hb => ?_⟩, ?_⟩
  · rw [hheld.nodup_iff, List.nodup_cons]
    exact ⟨fun h => ha (hl.alive a h), hl.nodup⟩
  · rw [hlive]
    rcases List.mem_cons.mp (hheld.mem_iff.mp hb) with rfl | hb
    · exact Set.mem_insert _ _
    · exact Set.mem_insert_of_mem _ (hl.alive b hb)
  · simp only [NoneLost, hlive, hheld.mem_iff, and_true]
    constructor
    · intro h b hb
      apply (List.mem_cons.mp (h b (Set.mem_insert_of_mem _ hb))).resolve_left
      rintro rfl
      exact ha hb
    · intro h b hb
      rcases Set.mem_insert_iff.mp hb with rfl | hb
      · exact List.mem_cons_self
      · exact List.mem_cons_of_mem _ (h b hb)

theorem Moves.finish (hlive : l'.live = l.live \ {a}) (hheld : l.held.Perm (a :: l'.held)) :
    Moves True l l' := by
  intro hl
  obtain ⟨ha, hnodup⟩ := List.nodup_cons.mp (hheld.nodup_iff.mp hl.nodup)
  refine ⟨⟨hnodup, fun b hb => ?_⟩, ?_⟩
  · rw [hlive]
    refine ⟨hl.alive b (hheld.mem_iff.mpr (List.mem_cons_of_mem _ hb)), ?_⟩
    rintro rfl
    exact ha hb
  · simp only [NoneLost, hlive, hheld.mem_iff, and_true]
    constructor
    · intro h b hb
      by_cases hba : b = a
      · exact hba ▸ List.mem_cons_self
      · exact List.mem_cons_of_mem _ (h b ⟨hb, hba⟩)
    · intro h b hb
      exact (List.mem_cons.mp (h b hb.1)).resolve_left hb.2

theorem Moves.drop (hlive : l'.live = l.live) (hheld : l.held.Perm (a :: l'.held)) :
    Moves False l l' := by
  intro hl
  obtain ⟨ha, hnodup⟩ := List.nodup_cons.mp (hheld.nodup_iff.mp hl.nodup)
  refine ⟨⟨hnodup, fun b hb => ?_⟩, iff_of_false (fun h => ?_) And.right⟩
  · rw [hlive]
    exact hl.alive b (hheld.mem_iff.mpr (List.mem_cons_of_mem _ hb))
  · refine ha (h a ?_)
    rw [hlive]
    exact hl.alive a (hheld.mem_iff.mpr List.mem_cons_self)

theorem Moves.congr {C D : Prop} (hCD : C ↔ D) (h : Moves C l l') : Moves D l l' := by
  intro hl
  rw [← hCD]
  exact h hl

theorem Moves.andThen {D : Prop} (h : Moves True l l') (h' : Moves D l' l'') : Moves D l l'' :=
  .congr (and_iff_right trivial) (h.trans h')

end Ledger

/-- What an element inside a list is, it is at the front of a permutation. -/
theorem perm_push {α : Type*} {l m : List α} {a : α} (front : List α) (h : l.Perm (a :: m)) :
    (front ++ l).Perm (a :: (front ++ m)) := (h.append_left front).trans List.perm_middle

/-! ## Held under a key -/

section Held

variable {κ α : Type*} [DecidableEq κ]

/-- The values of a map. -/
def held (m : AList fun _ : κ => α) : List α := m.entries.map Sigma.snd

variable {m : AList fun _ : κ => α} {k : κ} {a : α}

theorem mem_held : a ∈ held m ↔ ∃ k, m.lookup k = some a := by
  constructor
  · intro h
    obtain ⟨⟨k, b⟩, he, rfl⟩ := List.mem_map.mp h
    exact ⟨k, AList.mem_lookup_iff.mpr he⟩
  · intro ⟨k, h⟩
    exact List.mem_map_of_mem (AList.mem_lookup_iff.mp h)

theorem held_erase (m : AList fun _ : κ => α) (k : κ) :
    held (m.erase k) = (m.entries.kerase k).map Sigma.snd := rfl

theorem held_insert (m : AList fun _ : κ => α) (k : κ) (a : α) :
    held (m.insert k a) = a :: held (m.erase k) := rfl

theorem held_erase_of_none (h : m.lookup k = none) : held (m.erase k) = held m := by
  rw [held_erase, List.kerase_of_notMem_keys (AList.lookup_eq_none.mp h)]
  rfl

theorem held_perm_of_some (h : m.lookup k = some a) :
    (held m).Perm (a :: held (m.erase k)) := by
  have hk : k ∈ m.keys := AList.lookup_isSome.mp (by rw [h]; rfl)
  obtain ⟨b, front, back, hfront, hm, herase⟩ := List.exists_of_kerase hk
  have hb : b = a := by
    have hmem : ⟨k, b⟩ ∈ m.entries := by simp [hm]
    rw [← AList.mem_lookup_iff, h] at hmem
    exact (Option.mem_some_iff.mp hmem).symm
  rw [held_erase, herase, held, hm, hb, List.map_append, List.map_append]
  exact List.perm_middle

theorem held_insert_perm (h : m.lookup k = some a) (b : α) :
    (b :: held m).Perm (a :: held (m.insert k b)) := by
  rw [held_insert]
  exact ((held_perm_of_some h).cons b).trans (.swap a b _)

theorem held_insert_of_none (h : m.lookup k = none) (a : α) :
    held (m.insert k a) = a :: held m := by rw [held_insert, held_erase_of_none h]

theorem eq_of_lookup_eq {k' : κ} {p : α → Bool} (hn : ((held m).filter p).Nodup) (ha : p a)
    (h : m.lookup k = some a) (h' : m.lookup k' = some a) : k = k' := by
  by_contra hne
  have hperm := ((held_perm_of_some h).filter p).nodup_iff.mp hn
  rw [List.filter_cons_of_pos ha, List.nodup_cons] at hperm
  have hmem : a ∈ held (m.erase k) := by
    rw [mem_held]
    exact ⟨k', by rw [AList.lookup_erase_ne (Ne.symm hne), h']⟩
  exact hperm.1 (List.mem_filter.mpr ⟨hmem, ha⟩)

end Held

end Hound.Lib
