import Mathlib.Algebra.Order.Ring.Int

/-! Numbers of 32 bits with a sign. -/
namespace SwApi.Library

def int32 (x : Int) : Int := x.bmod (2 ^ 32)

theorem int32_eq (hlow : -2 ^ 31 ≤ x) (hhigh : x < 2 ^ 31) : int32 x = x :=
  Int.bmod_eq_of_le (by omega) (by omega)

end SwApi.Library
