import Mathlib.Algebra.Order.Ring.Nat
import Mathlib.Data.List.Basic

/-!
# Little-endian bytes

Numbers as byte sequences, least significant byte first, and the copy of a byte
range inside a sequence.
-/

namespace SysrepoAugeas.Data

/-- The lowest `width` bytes of a number. -/
def littleEndian : Nat → Nat → List (BitVec 8)
  | 0, _ => []
  | width + 1, value => BitVec.ofNat 8 value :: littleEndian width (value / 256)

def ofLittleEndian : List (BitVec 8) → Nat
  | [] => 0
  | byte :: rest => byte.toNat + 256 * ofLittleEndian rest

@[simp]
theorem length_littleEndian (width value : Nat) : (littleEndian width value).length = width := by
  induction width generalizing value with
  | zero => rfl
  | succ width inductionHypothesis => simp [littleEndian, inductionHypothesis]

/-- Reading back gives the number as far as it fits. -/
theorem ofLittleEndian_littleEndian (width value : Nat) :
    ofLittleEndian (littleEndian width value) = value % 256 ^ width := by
  induction width generalizing value with
  | zero => simp [littleEndian, ofLittleEndian, Nat.mod_one]
  | succ width inductionHypothesis =>
      simp only [littleEndian, ofLittleEndian, inductionHypothesis, BitVec.toNat_ofNat]
      have split : value % 256 ^ (width + 1) =
          value % 256 + 256 * (value / 256 % 256 ^ width) := by
        rw [Nat.pow_succ' (m := 256), Nat.mod_mul]
      exact split.symm

/-- `memmove`: `count` bytes from offset `source` to offset `destination`. -/
def memmove (destination source count : Nat) (bytes : List (BitVec 8)) : List (BitVec 8) :=
  bytes.take destination ++ ((bytes.drop source).take count ++ bytes.drop (destination + count))

@[simp]
theorem memmove_zero (destination source : Nat) (bytes : List (BitVec 8)) :
    memmove destination source 0 bytes = bytes := by
  simp [memmove]

end SysrepoAugeas.Data
