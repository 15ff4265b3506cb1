import Mathlib.Algebra.Group.Int.Defs
import Mathlib.Algebra.Group.Nat.Defs
import Mathlib.Tactic.Common

/-!
# Fixed-width C integers

Conversions to the C types `int`, `uint32_t`, `int64_t` and `uint64_t`, as
functions on the integers: two's complement for the signed types, reduction
modulo `2 ^ w` for the unsigned ones.  Each comes with the fact that a value
which already fits is left alone.
-/

namespace Muon
namespace Foundation

/-- Conversion to `int`. -/
def toInt32 (value : Int) : Int := Int.bmod value (2 ^ 32)

/-- Conversion to `int64_t`. -/
def toInt64 (value : Int) : Int := Int.bmod value (2 ^ 64)

/-- Conversion to `uint32_t`. -/
def toUInt32 (value : Int) : Nat := (value % 2 ^ 32).toNat

/-- Conversion to `uint64_t` and, on a 64-bit target, to `size_t`. -/
def toUInt64 (value : Int) : Nat := (value % 2 ^ 64).toNat

/-- The value is one of an `int`. -/
def FitsInt (value : Int) : Prop := -(2 ^ 31) ≤ value ∧ value < 2 ^ 31

instance (value : Int) : Decidable (FitsInt value) :=
  inferInstanceAs (Decidable (_ ∧ _))

theorem toInt32_of_fits {value : Int} (hlow : -(2 ^ 31) ≤ value)
    (hhigh : value < 2 ^ 31) : toInt32 value = value :=
  Int.bmod_eq_of_le (by omega) (by omega)

theorem toInt64_of_fits {value : Int} (hlow : -(2 ^ 63) ≤ value)
    (hhigh : value < 2 ^ 63) : toInt64 value = value :=
  Int.bmod_eq_of_le (by omega) (by omega)

theorem toUInt64_lt (value : Int) : toUInt64 value < 2 ^ 64 := by
  unfold toUInt64
  omega

theorem toUInt32_natCast {value : Nat} (hvalue : value < 2 ^ 32) :
    toUInt32 value = value := by
  unfold toUInt32
  omega

theorem toUInt64_natCast {value : Nat} (hvalue : value < 2 ^ 64) :
    toUInt64 value = value := by
  unfold toUInt64
  omega

/-- A non-negative `int` keeps its value as a `size_t`. -/
theorem toUInt64_of_nonneg {value : Int} (hlow : 0 ≤ value)
    (hhigh : value < 2 ^ 64) : toUInt64 value = value.toNat := by
  unfold toUInt64
  omega

end Foundation
end Muon
