import Mathlib.Algebra.Order.Ring.Int

/-!
# Coercions to 32-bit integers

`x | 0` of a whole number `x`, and what an entry of a `Uint32Array` becomes when `x` is written to it.
-/

namespace TongjiCode

/-- `x | 0`. -/
def toInt32 (x : Int) : Int := x.bmod (2 ^ 32)

/-- The numbers that `| 0` does not change. -/
def IsInt32 (x : Int) : Prop := -2 ^ 31 ≤ x ∧ x < 2 ^ 31

instance (x : Int) : Decidable (IsInt32 x) := inferInstanceAs (Decidable (_ ∧ _))

theorem toInt32_eq {x : Int} (h : IsInt32 x) : toInt32 x = x := by
  unfold IsInt32 at h
  apply Int.bmod_eq_of_le <;> omega

/-- What is stored for `x` in a `Uint32Array`. -/
def toUint32 (x : Int) : Nat := (x % 2 ^ 32).toNat

theorem toUint32_eq {x : Nat} (h : x < 2 ^ 32) : toUint32 x = x := by
  unfold toUint32
  omega

end TongjiCode
