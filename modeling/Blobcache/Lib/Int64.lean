import Mathlib.Algebra.Order.Ring.Int

/-!
# Signed 64-bit arithmetic on integers

A machine integer is an integer in range; the operators that can leave the range wrap
around, as two's complement does. The lemmas remove the wrap where a bound is known.
-/

namespace Int64Arith
set_option autoImplicit false

/-- The values of the type. -/
def InRange (x : Int) : Prop := -2 ^ 63 ≤ x ∧ x < 2 ^ 63

instance (x : Int) : Decidable (InRange x) := inferInstanceAs (Decidable (_ ∧ _))

theorem inRange_zero : InRange 0 := by decide

theorem inRange_one : InRange 1 := by decide

theorem inRange_natCast {n : Nat} (small : n < 2 ^ 63) : InRange n := ⟨by omega, by omega⟩

/-- Two's complement wrap-around to 64 bits. -/
def wrap (x : Int) : Int := x.bmod (2 ^ 64)

theorem wrap_eq {x : Int} (low : -2 ^ 63 ≤ x) (high : x < 2 ^ 63) : wrap x = x :=
  Int.bmod_eq_of_le (by omega) (by omega)

theorem inRange_wrap (x : Int) : InRange (wrap x) := by
  have low := Int.le_bmod (x := x) (m := 2 ^ 64) (by decide)
  have high := Int.bmod_lt (x := x) (m := 2 ^ 64) (by decide)
  unfold InRange wrap
  omega

theorem wrap_add {a b : Nat} (inRange : a + b < 2 ^ 63) : wrap ((a : Int) + b) = (a + b : Nat) := by
  rw [wrap_eq (by omega) (by omega), Int.natCast_add]

theorem wrap_sub {a b : Nat} (le : b ≤ a) (inRange : a < 2 ^ 63) : wrap ((a : Int) - b) = (a - b : Nat) := by
  rw [wrap_eq (by omega) (by omega), Int.ofNat_sub le]

theorem wrap_wrap_add (a b : Int) : wrap (wrap a + b) = wrap (a + b) := Int.bmod_add_bmod

theorem wrap_wrap_sub (a b : Int) : wrap (wrap a - b) = wrap (a - b) := Int.bmod_sub_bmod

/-- One overflow upwards. -/
theorem wrap_over {x : Int} (low : 2 ^ 63 ≤ x) (high : x < 2 ^ 64) : wrap x = x - 2 ^ 64 := by
  have shifted : wrap (x - 2 ^ 64) = wrap x := Int.sub_bmod_right x (2 ^ 64)
  rw [← shifted, wrap_eq (by omega) (by omega)]

end Int64Arith
