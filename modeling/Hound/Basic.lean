import Mathlib.Algebra.Group.Nat.Defs
import Mathlib.Data.List.Basic

/-!
# Bytes and `size_t`

A `char` is a `UInt8`; a `std::string`, a `std::string_view` and a stretch of
memory are lists of them. `size_t` is 64 bits wide. Sizes of data that is held in
memory stay natural numbers; `sizeAdd` and `sizeSub` wrap, and stand where an
operand comes from the network.
-/

namespace Hound

abbrev Byte := UInt8
abbrev Bytes := List Byte

/-- The bytes of an ASCII literal. -/
def bytes (s : String) : Bytes := s.toList.map fun c => UInt8.ofNat c.toNat

abbrev CR : Byte := 13
abbrev LF : Byte := 10
abbrev SP : Byte := 32
abbrev crlf : Bytes := [CR, LF]

/-- The number of values of `size_t`. -/
abbrev sizeMod : Nat := 2 ^ 64

def sizeAdd (a b : Nat) : Nat := (a + b) % sizeMod

def sizeSub (a b : Nat) : Nat := (a + (sizeMod - b % sizeMod)) % sizeMod

theorem sizeAdd_of_lt {a b : Nat} (h : a + b < sizeMod) : sizeAdd a b = a + b :=
  Nat.mod_eq_of_lt h

theorem sizeSub_of_le {a b : Nat} (hba : b ≤ a) (ha : a < sizeMod) : sizeSub a b = a - b := by
  unfold sizeSub
  rw [Nat.mod_eq_of_lt (by omega : b < sizeMod),
    show a + (sizeMod - b) = (a - b) + sizeMod by omega, Nat.add_mod_right]
  exact Nat.mod_eq_of_lt (by omega)

/-- `memcpy(dst + off, src, |src|)`. -/
def memcpy (dst : Bytes) (off : Nat) (src : Bytes) : Bytes :=
  dst.take off ++ src ++ dst.drop (off + src.length)

theorem length_memcpy {dst src : Bytes} {off : Nat} (h : off + src.length ≤ dst.length) :
    (memcpy dst off src).length = dst.length := by
  simp only [memcpy, List.length_append, List.length_take, List.length_drop]
  omega

/-- Bytes in front of the target keep their value; the copied bytes follow them. -/
theorem take_memcpy {dst src : Bytes} {off : Nat} (h : off ≤ dst.length) :
    (memcpy dst off src).take (off + src.length) = dst.take off ++ src := by
  have hlen : (dst.take off ++ src).length = off + src.length := by
    simp only [List.length_append, List.length_take]; omega
  rw [memcpy, ← hlen, List.take_left]

end Hound
