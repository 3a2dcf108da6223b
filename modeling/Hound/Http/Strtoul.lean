import Hound.Basic
import Hound.Lib.Search

/-!
# `strtoul`

The C library function on 64-bit `unsigned long`: leading white space, an optional
sign, an optional `0x` in base 16, then the longest run of digits; saturation at
`ULONG_MAX`, negation modulo `2^64`. It is given a pointer, not a length: its input
here is the memory from that pointer on, and the result is `none` when the scan
leaves that memory before it has seen the byte that ends it.
-/

namespace Hound

/-- `isspace` in the C locale. -/
def isSpace (b : Byte) : Bool := b = 32 ∨ (9 ≤ b ∧ b ≤ 13)

/-- The value of a digit or letter, as in every base up to 36. -/
def digitVal (b : Byte) : Nat :=
  if 48 ≤ b ∧ b ≤ 57 then b.toNat - 48
  else if 65 ≤ b ∧ b ≤ 90 then b.toNat - 55
  else if 97 ≤ b ∧ b ≤ 122 then b.toNat - 87
  else 36

def isDigit (base : Nat) (b : Byte) : Bool := digitVal b < base

/-- The number a list of digits denotes. -/
def digitsVal (base : Nat) (ds : Bytes) : Nat := ds.foldl (fun acc d => acc * base + digitVal d) 0

/-- The leading digits, if a byte that is none follows them in memory. -/
def scanDigits (base : Nat) : Bytes → Option Bytes
  | [] => none
  | b :: mem => if isDigit base b then (scanDigits base mem).map (b :: ·) else some []

/-- Skip `0x` or `0X`. Without a digit behind it only the `0` counts, which is 0 as well. -/
def skipHexPrefix : Bytes → Bytes
  | 48 :: 120 :: mem => mem
  | 48 :: 88 :: mem => mem
  | mem => mem

def ulongOf (neg : Bool) (v : Nat) : Nat :=
  if sizeMod ≤ v then sizeMod - 1 else if neg then (sizeMod - v) % sizeMod else v

def strtoul (mem : Bytes) (base : Nat) : Option Nat :=
  match mem.dropWhile isSpace with
  | [] => none
  | b :: mem =>
    let neg := b = 45
    let mem := if b = 45 ∨ b = 43 then mem else b :: mem
    let mem := if base = 16 then skipHexPrefix mem else mem
    (scanDigits base mem).map fun ds => ulongOf neg (digitsVal base ds)

theorem ulongOf_lt (neg : Bool) (v : Nat) : ulongOf neg v < sizeMod := by
  unfold ulongOf
  split
  · exact Nat.sub_lt (Nat.two_pow_pos 64) Nat.one_pos
  · split
    · exact Nat.mod_lt _ (Nat.two_pow_pos 64)
    · omega

theorem strtoul_lt {mem : Bytes} {base v : Nat} (h : strtoul mem base = some v) : v < sizeMod := by
  unfold strtoul at h
  split at h
  · cases h
  · obtain ⟨ds, -, rfl⟩ := Option.map_eq_some_iff.mp h
    exact ulongOf_lt _ _

/-! ## More memory -/

section More

variable {base : Nat} {mem ds : Bytes}

theorem scanDigits_more : ∀ {mem ds : Bytes}, scanDigits base mem = some ds →
    ∀ x, scanDigits base (mem ++ x) = some ds
  | b :: mem, ds, h, x => by
    rw [List.cons_append]
    unfold scanDigits at h ⊢
    split at h
    · next hb =>
      obtain ⟨es, hes, rfl⟩ := Option.map_eq_some_iff.mp h
      rw [if_pos hb, scanDigits_more hes x]
      rfl
    · next hb => rw [if_neg hb]; exact h

theorem skipHexPrefix_singleton (b : Byte) : skipHexPrefix [b] = [b] := by
  unfold skipHexPrefix
  split <;> simp_all

theorem scanDigits_skip_more (h : scanDigits 16 (skipHexPrefix mem) = some ds) (x : Bytes) :
    scanDigits 16 (skipHexPrefix (mem ++ x)) = some ds := by
  match mem, h with
  | [b], h =>
    rw [skipHexPrefix_singleton] at h
    by_cases hb : isDigit 16 b = true
    · simp [scanDigits, hb] at h
    · have hne : b ≠ 48 := by rintro rfl; exact hb (by decide)
      have hskip : skipHexPrefix ([b] ++ x) = [b] ++ x := by
        unfold skipHexPrefix
        split
        · next he => simp only [List.singleton_append, List.cons.injEq] at he; exact absurd he.1 hne
        · next he => simp only [List.singleton_append, List.cons.injEq] at he; exact absurd he.1 hne
        · rfl
      rw [hskip]
      exact scanDigits_more h x
  | b :: c :: mem, h =>
    have hskip : skipHexPrefix (b :: c :: mem ++ x) = skipHexPrefix (b :: c :: mem) ++ x := by
      unfold skipHexPrefix
      simp only [List.cons_append]
      split <;> simp_all
    rw [hskip]
    exact scanDigits_more h x

/-- A scan that ends inside the memory does not look at what follows. -/
theorem strtoul_more {v : Nat} (h : strtoul mem 16 = some v) (x : Bytes) :
    strtoul (mem ++ x) 16 = some v := by
  unfold strtoul at h ⊢
  split at h
  · cases h
  · next b t hd =>
    obtain ⟨ds, hds, rfl⟩ := Option.map_eq_some_iff.mp h
    rw [Lib.dropWhile_append_cons hd x]
    simp only [List.cons_append, if_true] at hds ⊢
    have hsign : (if b = 45 ∨ b = 43 then t ++ x else b :: (t ++ x)) =
        (if b = 45 ∨ b = 43 then t else b :: t) ++ x := by split <;> rfl
    rw [hsign, scanDigits_skip_more hds x]
    rfl

end More

/-! ## Numerals -/

/-- A non-empty string of digits that denotes `n`. -/
structure Numeral (base : Nat) (ds : Bytes) (n : Nat) : Prop where
  ne_nil : ds ≠ []
  digits : ∀ d ∈ ds, isDigit base d = true
  value : digitsVal base ds = n

instance (base : Nat) (ds : Bytes) (n : Nat) : Decidable (Numeral base ds n) :=
  decidable_of_iff (ds ≠ [] ∧ ds.all (isDigit base) = true ∧ digitsVal base ds = n)
    ⟨fun h => ⟨h.1, List.all_eq_true.mp h.2.1, h.2.2⟩,
      fun h => ⟨h.ne_nil, List.all_eq_true.mpr h.digits, h.value⟩⟩

variable {base : Nat} {b c : Byte}

theorem digitVal_of_lt (hb : b < 48) : digitVal b = 36 := by
  have hb : b.toNat < 48 := hb
  unfold digitVal
  simp only [UInt8.le_iff_toNat_le, UInt8.reduceToNat]
  rw [if_neg (by omega), if_neg (by omega), if_neg (by omega)]

theorem not_isDigit_of_lt (hbase : base ≤ 36) (hb : b < 48) : isDigit base b = false := by
  simp [isDigit, digitVal_of_lt hb, hbase]

theorem le_of_isDigit (hbase : base ≤ 36) (h : isDigit base b = true) : 48 ≤ b := by
  by_contra hlt
  rw [not_isDigit_of_lt hbase (UInt8.not_le.mp hlt)] at h
  cases h

theorem not_isSpace_of_le (hb : 48 ≤ b) : isSpace b = false := by
  have hb : 48 ≤ b.toNat := hb
  simp only [isSpace, UInt8.le_iff_toNat_le, ← UInt8.toNat_inj, UInt8.reduceToNat,
    decide_eq_false_iff_not]
  omega

theorem scanDigits_append (hc : isDigit base c = false) (mem : Bytes) :
    ∀ {ds : Bytes}, (∀ d ∈ ds, isDigit base d = true) →
      scanDigits base (ds ++ c :: mem) = some ds
  | [], _ => by simp [scanDigits, hc]
  | d :: ds, h => by
    have ih := scanDigits_append hc mem fun e he => h e (List.mem_cons_of_mem d he)
    simp [scanDigits, h d List.mem_cons_self, ih]

theorem skipHexPrefix_of_ne {d e : Byte} (mem : Bytes) (he : e ≠ 120 ∧ e ≠ 88) :
    skipHexPrefix (d :: e :: mem) = d :: e :: mem := by
  unfold skipHexPrefix
  split
  · next h => simp only [List.cons.injEq] at h; exact absurd h.2.1 he.1
  · next h => simp only [List.cons.injEq] at h; exact absurd h.2.1 he.2
  · rfl

theorem ne_x_of_isDigit (h : isDigit 16 b = true) : b ≠ 120 ∧ b ≠ 88 := by
  constructor <;> rintro rfl <;> revert h <;> decide

theorem Numeral.notMem {ds : Bytes} {n : Nat} (h : Numeral base ds n) (hbase : base ≤ 36)
    (hc : c < 48) : c ∉ ds := by
  intro hm
  have := h.digits c hm
  rw [not_isDigit_of_lt hbase hc] at this
  cases this

theorem Numeral.strtoul {ds : Bytes} {n : Nat} (h : Numeral base ds n) (hbase : base ≤ 36)
    (hn : n < sizeMod) (hc : c < 48) (mem : Bytes) :
    strtoul (ds ++ c :: mem) base = some n := by
  obtain ⟨d, ds', rfl⟩ := List.exists_cons_of_ne_nil h.ne_nil
  have hd : 48 ≤ d := le_of_isDigit hbase (h.digits d List.mem_cons_self)
  have hsign : d ≠ 45 ∧ d ≠ 43 := by
    constructor <;> rintro rfl <;> revert hd <;> decide
  have hprefix : base = 16 → skipHexPrefix (d :: ds' ++ c :: mem) = d :: ds' ++ c :: mem := by
    rintro rfl
    cases ds' with
    | nil =>
      apply skipHexPrefix_of_ne mem
      constructor <;> rintro rfl <;> revert hc <;> decide
    | cons e ds' => exact skipHexPrefix_of_ne _ (ne_x_of_isDigit (h.digits e (by simp)))
  have hscan := scanDigits_append (not_isDigit_of_lt hbase hc) mem h.digits
  rw [List.cons_append] at hprefix hscan ⊢
  simp only [Hound.strtoul, List.dropWhile_cons, not_isSpace_of_le hd]
  split
  · next h0 => simp at h0
  · next h0 =>
    simp only [Bool.false_eq_true, if_false, List.cons.injEq] at h0
    obtain ⟨rfl, rfl⟩ := h0
    simp only [hsign.1, hsign.2, or_self, if_false, decide_false]
    have hskip : (if base = 16 then skipHexPrefix (d :: (ds' ++ c :: mem)) else
        d :: (ds' ++ c :: mem)) = d :: (ds' ++ c :: mem) := by split <;> simp_all
    rw [hskip, hscan, Option.map_some, h.value]
    rw [ulongOf, if_neg (by omega), if_neg (by decide)]

end Hound
