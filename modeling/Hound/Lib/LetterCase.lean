import Mathlib.Data.List.Basic

/-!
# Letter case of ASCII text

`lower` and `upper` on byte strings. Two strings that differ in the case of their letters
have the same `lower`; without a letter in it a string is the only one of its case class
(`eq_of_lower_eq`).
-/

namespace Hound.Lib

def IsLetter (b : UInt8) : Prop := (65 ≤ b ∧ b ≤ 90) ∨ (97 ≤ b ∧ b ≤ 122)

instance (b : UInt8) : Decidable (IsLetter b) := inferInstanceAs (Decidable (_ ∨ _))

def lowerByte (b : UInt8) : UInt8 := if 65 ≤ b ∧ b ≤ 90 then b + 32 else b

def upperByte (b : UInt8) : UInt8 := if 97 ≤ b ∧ b ≤ 122 then b - 32 else b

def lower (s : List UInt8) : List UInt8 := s.map lowerByte

def upper (s : List UInt8) : List UInt8 := s.map upperByte

section Byte

variable {b c : UInt8}

theorem lowerByte_lowerByte : lowerByte (lowerByte b) = lowerByte b := by
  unfold lowerByte
  grind

theorem lowerByte_upperByte : lowerByte (upperByte b) = lowerByte b := by
  unfold lowerByte upperByte
  grind

theorem not_upper_lowerByte : ¬ (65 ≤ lowerByte b ∧ lowerByte b ≤ 90) := by
  unfold lowerByte
  grind

theorem upper_upperByte (h : IsLetter b) : 65 ≤ upperByte b ∧ upperByte b ≤ 90 := by
  unfold upperByte
  unfold IsLetter at h
  grind

theorem lowerByte_eq_iff (hc : ¬ IsLetter c) : lowerByte b = c ↔ b = c := by
  unfold lowerByte
  unfold IsLetter at hc
  grind

end Byte

variable {s t : List UInt8}

@[simp] theorem lower_lower : lower (lower s) = lower s := by
  rw [lower, lower, List.map_map]
  exact List.map_congr_left fun _ _ => lowerByte_lowerByte

@[simp] theorem lower_upper : lower (upper s) = lower s := by
  rw [lower, lower, upper, List.map_map]
  exact List.map_congr_left fun _ _ => lowerByte_upperByte

theorem mem_lower_iff {c : UInt8} (hc : ¬ IsLetter c) : c ∈ lower s ↔ c ∈ s := by
  rw [lower, List.mem_map]
  constructor
  · rintro ⟨b, hb, h⟩
    rw [← (lowerByte_eq_iff hc).mp h]
    exact hb
  · exact fun h => ⟨c, h, (lowerByte_eq_iff hc).mpr rfl⟩

/-- Strings of one case class have the same bytes that are no letters. -/
theorem mem_of_lower_eq {c : UInt8} (hc : ¬ IsLetter c) (h : lower s = lower t) :
    c ∈ s ↔ c ∈ t := by
  rw [← mem_lower_iff hc, h, mem_lower_iff hc]

theorem exists_letter_of_lower_eq (h : lower s = lower t) (hs : ∃ b ∈ s, IsLetter b) :
    ∃ b ∈ t, IsLetter b := by
  obtain ⟨b, hb, hl⟩ := hs
  have hm : lowerByte b ∈ lower t := h ▸ List.mem_map_of_mem hb
  obtain ⟨c, hc, he⟩ := List.mem_map.mp hm
  refine ⟨c, hc, by_contra fun hn => ?_⟩
  have hcc : lowerByte c = c := (lowerByte_eq_iff hn).mpr rfl
  have hbc : b = c := (lowerByte_eq_iff hn).mp (he.symm.trans hcc)
  exact hn (hbc ▸ hl)

theorem eq_of_lower_eq (ht : ∀ b ∈ t, ¬ IsLetter b) (h : lower s = lower t) : s = t := by
  induction t generalizing s with
  | nil => exact List.map_eq_nil_iff.mp h
  | cons c t ih =>
    cases s with
    | nil => cases h
    | cons b s =>
      rw [lower, lower, List.map_cons, List.map_cons, List.cons.injEq] at h
      have hc := ht c List.mem_cons_self
      have hcc : lowerByte c = c := (lowerByte_eq_iff hc).mpr rfl
      rw [(lowerByte_eq_iff hc).mp (h.1.trans hcc),
        ih (fun b hb => ht b (List.mem_cons_of_mem c hb)) h.2]

theorem upper_ne_lower (hs : ∃ b ∈ s, IsLetter b) : upper s ≠ lower t := by
  obtain ⟨b, hb, hl⟩ := hs
  intro h
  have hm : upperByte b ∈ lower t := h ▸ List.mem_map_of_mem hb
  obtain ⟨c, -, he⟩ := List.mem_map.mp hm
  refine not_upper_lowerByte (b := c) ?_
  rw [he]
  exact upper_upperByte hl

end Hound.Lib
