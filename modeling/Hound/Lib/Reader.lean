import Mathlib.Data.List.Basic

/-!
# Readers of a stream

A `Reader` takes one item off the front of a list, or waits for more of it; what it took, it takes
again when the list is longer. Readers are put together by `map`, `bind`, `take` and
`readUntil`, which takes items up to one that ends them. `readAll` takes items as long as there
are some: if the reader undoes an encoding, then whatever front part of the encodings of some
items has arrived, it has taken the first of the items and nothing else
(`Undoes.readAll_part`).
-/

namespace Hound.Lib

structure Reader (α β : Type*) where
  read : List α → Option (β × List α)
  suffix : ∀ {w rest : List α} {b : β}, read w = some (b, rest) → rest <:+ w
  stable : ∀ {w rest : List α} {b : β}, read w = some (b, rest) →
    ∀ x, read (w ++ x) = some (b, rest ++ x)

namespace Reader

variable {α β γ δ : Type*}

/-- An item is not taken for nothing. -/
def Eager (R : Reader α β) : Prop :=
  ∀ ⦃w rest : List α⦄ ⦃b : β⦄, R.read w = some (b, rest) → rest.length < w.length

/-- What `encode` writes of a good item is read as `view` has it, whatever follows. -/
def Undoes (R : Reader α β) (encode : γ → List α) (view : γ → β) (good : γ → Prop) : Prop :=
  ∀ ⦃c : γ⦄, good c → ∀ rest, R.read (encode c ++ rest) = some (view c, rest)

/-! ## Small readers -/

def fail : Reader α β where
  read _ := none
  suffix h := by cases h
  stable h := by cases h

def take (n : Nat) : Reader α (List α) where
  read w := if n ≤ w.length then some (w.take n, w.drop n) else none
  suffix h := by
    obtain ⟨-, h⟩ := Option.ite_none_right_eq_some.mp h
    cases h
    exact List.drop_suffix _ _
  stable h x := by
    obtain ⟨hn, h⟩ := Option.ite_none_right_eq_some.mp h
    cases h
    rw [if_pos (by rw [List.length_append]; omega), List.take_append_of_le_length hn,
      List.drop_append_of_le_length hn]

theorem take_read (l rest : List α) : (take l.length).read (l ++ rest) = some (l, rest) := by
  unfold take
  simp only
  rw [if_pos (by rw [List.length_append]; omega), List.take_left, List.drop_left]

def map (f : β → γ) (R : Reader α β) : Reader α γ where
  read w := (R.read w).map fun r => (f r.1, r.2)
  suffix h := by
    obtain ⟨r, hr, h⟩ := Option.map_eq_some_iff.mp h
    cases h
    exact R.suffix hr
  stable h x := by
    obtain ⟨r, hr, h⟩ := Option.map_eq_some_iff.mp h
    cases h
    rw [R.stable hr x]
    rfl

def bind (R : Reader α β) (f : β → Reader α γ) : Reader α γ where
  read w := (R.read w).bind fun r => (f r.1).read r.2
  suffix h := by
    obtain ⟨r, hr, h⟩ := Option.bind_eq_some_iff.mp h
    exact ((f r.1).suffix h).trans (R.suffix hr)
  stable h x := by
    obtain ⟨r, hr, h⟩ := Option.bind_eq_some_iff.mp h
    rw [R.stable hr x]
    exact (f r.1).stable h x

theorem Eager.bind {R : Reader α β} (hR : R.Eager) (f : β → Reader α γ) : (R.bind f).Eager := by
  intro w rest c h
  obtain ⟨r, hr, h⟩ := Option.bind_eq_some_iff.mp h
  exact Nat.lt_of_le_of_lt ((f r.1).suffix h).length_le (hR hr)

/-! ## Items up to the one that ends them -/

section Until

def readUntil (R : Reader α β) (hR : R.Eager) (stop : β → Bool) (w : List α) :
    Option (List β × List α) :=
  match _h : R.read w with
  | none => none
  | some (b, rest) =>
    if stop b then some ([], rest)
    else (readUntil R hR stop rest).map fun r => (b :: r.1, r.2)
termination_by w.length
decreasing_by exact hR _h

variable {R : Reader α β} {hR : R.Eager} {stop : β → Bool}

theorem readUntil_some {w rest : List α} {b : β} (h : R.read w = some (b, rest)) :
    readUntil R hR stop w =
      if stop b then some ([], rest)
      else (readUntil R hR stop rest).map fun r => (b :: r.1, r.2) := by
  rw [readUntil]
  split
  · next hn => cases h.symm.trans hn
  · next hs =>
    cases h.symm.trans hs
    rfl

theorem read_of_readUntil {w : List α} {r : List β × List α}
    (h : readUntil R hR stop w = some r) : ∃ b rest, R.read w = some (b, rest) := by
  rw [readUntil] at h
  split at h
  · cases h
  · next hs => exact ⟨_, _, hs⟩

theorem readUntil_stable : ∀ {n : Nat} {w : List α} {r : List β × List α}, w.length ≤ n →
    readUntil R hR stop w = some r →
    r.2 <:+ w ∧ r.2.length < w.length ∧ ∀ x, readUntil R hR stop (w ++ x) = some (r.1, r.2 ++ x)
  | n, w, r, hn, h => by
    obtain ⟨b, rest, hread⟩ := read_of_readUntil h
    have hlt := hR hread
    rw [readUntil_some hread] at h
    split at h
    · next hstop =>
      cases h
      refine ⟨R.suffix hread, hlt, fun x => ?_⟩
      rw [readUntil_some (R.stable hread x), if_pos hstop]
    · next hgo =>
      obtain ⟨r', hr', h⟩ := Option.map_eq_some_iff.mp h
      cases h
      cases n with
      | zero => omega
      | succ n =>
        obtain ⟨hsuffix, hless, hmore⟩ := readUntil_stable (n := n) (by omega) hr'
        refine ⟨hsuffix.trans (R.suffix hread), by simp only; omega, fun x => ?_⟩
        rw [readUntil_some (R.stable hread x), if_neg hgo, hmore x]
        rfl

variable (R hR stop)

/-- The items in front of the first that satisfies `stop`, which is taken as well. -/
def upTo : Reader α (List β) where
  read := readUntil R hR stop
  suffix h := (readUntil_stable (Nat.le_refl _) h).1
  stable h := (readUntil_stable (Nat.le_refl _) h).2.2

variable {R hR stop}

theorem upTo_eager : (upTo R hR stop).Eager :=
  fun _ _ _ h => (readUntil_stable (Nat.le_refl _) h).2.1

theorem Undoes.upTo {encode : β → List α} {good : β → Prop} (h : R.Undoes encode id good)
    {last : β} (hgood : good last) (hlast : stop last = true) (rest : List α) :
    ∀ {bs : List β}, (∀ b ∈ bs, good b ∧ stop b = false) →
      (upTo R hR stop).read (bs.flatMap encode ++ (encode last ++ rest)) = some (bs, rest)
  | [], _ => (readUntil_some (h hgood rest)).trans (if_pos hlast)
  | b :: bs, hbs => by
    obtain ⟨⟨hb, hgo⟩, hbs⟩ := List.forall_mem_cons.mp hbs
    have ih := Undoes.upTo h hgood hlast rest hbs
    rw [List.flatMap_cons, List.append_assoc]
    refine (readUntil_some (h hb _)).trans ?_
    rw [if_neg (by rw [id, hgo]; exact Bool.false_ne_true)]
    exact congrArg (Option.map _) ih

end Until

/-! ## All that has arrived -/

section All

/-- The items that can be taken, and what is left behind them. -/
def readAll (R : Reader α β) (hR : R.Eager) (w : List α) : List β × List α :=
  match _h : R.read w with
  | none => ([], w)
  | some (b, rest) => (b :: (readAll R hR rest).1, (readAll R hR rest).2)
termination_by w.length
decreasing_by all_goals exact hR _h

variable {R : Reader α β} {hR : R.Eager}

theorem readAll_none {w : List α} (h : R.read w = none) : readAll R hR w = ([], w) := by
  rw [readAll]
  split
  · rfl
  · next hs => cases h.symm.trans hs

theorem readAll_some {w rest : List α} {b : β} (h : R.read w = some (b, rest)) :
    readAll R hR w = (b :: (readAll R hR rest).1, (readAll R hR rest).2) := by
  rw [readAll]
  split
  · next hn => cases h.symm.trans hn
  · next hs =>
    cases h.symm.trans hs
    rfl

theorem Eager.read_nil (hR : R.Eager) : R.read [] = none :=
  Option.eq_none_iff_forall_not_mem.mpr fun _ hr => absurd (hR hr) (Nat.not_lt_zero _)

variable {encode : γ → List α} {view : γ → β} {good : γ → Prop}

/-- **A whole stream** is taken apart again. -/
theorem Undoes.readAll_flatMap (h : R.Undoes encode view good) :
    ∀ {cs : List γ}, (∀ c ∈ cs, good c) → readAll R hR (cs.flatMap encode) = (cs.map view, [])
  | [], _ => readAll_none hR.read_nil
  | c :: cs, hcs => by
    obtain ⟨hc, hcs⟩ := List.forall_mem_cons.mp hcs
    rw [List.flatMap_cons, readAll_some (h hc _), h.readAll_flatMap hcs]
    rfl

/-- **A part of a stream.** The items that it has in full are taken, and no others. -/
theorem Undoes.readAll_part (h : R.Undoes encode view good) :
    ∀ {cs : List γ} {w : List α}, (∀ c ∈ cs, good c) → w <+: cs.flatMap encode →
      ∃ done left part, cs = done ++ left ∧ readAll R hR w = (done.map view, part) ∧
        w = done.flatMap encode ++ part ∧ R.read part = none
  | [], w, _, hw => by
    obtain rfl : w = [] := List.prefix_nil.mp hw
    exact ⟨[], [], [], rfl, readAll_none hR.read_nil, rfl, hR.read_nil⟩
  | c :: cs, w, hcs, hw => by
    obtain ⟨hc, hgood⟩ := List.forall_mem_cons.mp hcs
    cases hread : R.read w with
    | none => exact ⟨[], c :: cs, w, rfl, readAll_none hread, rfl, hread⟩
    | some r =>
      obtain ⟨b, rest⟩ := r
      obtain ⟨x, hx⟩ := hw
      -- with all of the stream, the first item is read; it is the same one
      have hfull := (R.stable hread x).symm.trans ((congrArg R.read hx).trans (h hc _))
      obtain ⟨rfl, hrest⟩ := Prod.mk.inj (Option.some.inj hfull)
      have hfirst : w = encode c ++ rest := by
        refine List.append_cancel_right (hx.trans ?_)
        rw [List.flatMap_cons, List.append_assoc]
        exact congrArg _ hrest.symm
      obtain ⟨done, left, part, rfl, hall, rfl, hwait⟩ := h.readAll_part hgood ⟨x, hrest⟩
      refine ⟨c :: done, left, part, rfl, ?_, ?_, hwait⟩
      · rw [readAll_some hread, hall]
        rfl
      · rw [hfirst, List.flatMap_cons, List.append_assoc]

end All

end Reader

end Hound.Lib
