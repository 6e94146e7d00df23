import Mathlib.Data.Nat.Bitwise
import Mathlib.Tactic.Ring
import SwApi.Library.Int32

/-! Addresses of a 32-bit machine, and rounding to a power of two. -/
namespace SwApi.Library

def addr (x : Int) : Nat := (x % 2 ^ 32).toNat

/-- `x & ~mask`. -/
def alignDown (mask x : Nat) : Nat := x &&& (2 ^ 32 - 1 - mask)

def roundUp (a x : Nat) : Nat := (x + (a - 1)) / a * a

theorem addr_eq {x : Int} {n : Nat} (h : x = n) (hn : n < 2 ^ 32) : addr x = n := by
  rw [addr, h]
  omega

/-- A difference of addresses as an `int`. -/
theorem int32_addr (hlow : -2 ^ 31 ≤ x) (hhigh : x < 2 ^ 31) : int32 (addr x) = x := by
  have hmod : ((addr x : Nat) : Int) = x % 2 ^ 32 := by
    rw [addr]
    omega
  rw [hmod, int32]
  have hwrap : (x % ((2 ^ 32 : Nat) : Int)).bmod (2 ^ 32) = x.bmod (2 ^ 32) := Int.emod_bmod ..
  rw [show (2 ^ 32 : Int) = ((2 ^ 32 : Nat) : Int) from rfl, hwrap,
    Int.bmod_eq_of_le (by omega) (by omega)]

theorem addr_add_int32 (a : Nat) (x : Int) : addr ((a % 2 ^ 32 : Nat) + int32 x) = addr
    (a + x) := by
  have hmod : int32 x % 2 ^ 32 = x % 2 ^ 32 := Int.bmod_emod
  rw [addr, addr]
  omega

section
variable {x : Nat}

theorem dvd_roundUp (a x : Nat) : a ∣ roundUp a x := ⟨(x + (a - 1)) / a, Nat.mul_comm ..⟩

theorem le_roundUp (ha : 0 < a) : x ≤ roundUp a x := by
  have hdiv := Nat.div_add_mod' (x + (a - 1)) a
  have hmod := Nat.mod_lt (x + (a - 1)) ha
  rw [roundUp]
  omega

theorem roundUp_lt (ha : 0 < a) : roundUp a x < x + a := by
  have hle := Nat.div_mul_le_self (x + (a - 1)) a
  rw [roundUp]
  omega

theorem roundUp_le (h : a ∣ y) (hxy : x ≤ y) (ha : 0 < a) : roundUp a x ≤ y := by
  obtain ⟨n, rfl⟩ := h
  have hlt : (x + (a - 1)) / a < n + 1 := by
    rw [Nat.div_lt_iff_lt_mul ha, Nat.add_mul, Nat.mul_comm n a]
    omega
  rw [roundUp, Nat.mul_comm a n]
  exact Nat.mul_le_mul_right a (Nat.lt_succ_iff.1 hlt)

theorem roundUp_add (h : a ∣ x) (ha : 0 < a) : roundUp a (x + y) = x + roundUp a y := by
  obtain ⟨n, rfl⟩ := h
  rw [roundUp, roundUp, Nat.add_assoc, Nat.mul_add_div ha, Nat.add_mul, Nat.mul_comm n a]

theorem add_le_of_lt (hx : a ∣ x) (hy : a ∣ y) (h : x < y) : x + a ≤ y := by
  obtain ⟨m, rfl⟩ := hx
  obtain ⟨n, rfl⟩ := hy
  have hmn : m < n := lt_of_mul_lt_mul_left h (Nat.zero_le a)
  calc a * m + a = a * (m + 1) := by ring
    _ ≤ a * n := Nat.mul_le_mul_left a hmn

theorem alignDown_eq (hk : k ≤ 32) (hx : x < 2 ^ 32) :
    alignDown (2 ^ k - 1) x = x / 2 ^ k * 2 ^ k := by
  have hpow : 0 < 2 ^ k := Nat.two_pow_pos k
  have hmask : 2 ^ 32 - 1 - (2 ^ k - 1) = 2 ^ 32 - (2 ^ k - 1 + 1) := by omega
  have hlt : 2 ^ k - 1 < 2 ^ 32 := by
    have := Nat.pow_le_pow_right (n := 2) (by decide) hk
    omega
  rw [← Nat.shiftRight_eq_div_pow, ← Nat.shiftLeft_eq]
  apply Nat.eq_of_testBit_eq
  intro i
  rw [alignDown, hmask, Nat.testBit_and, Nat.testBit_two_pow_sub_succ hlt,
    Nat.testBit_two_pow_sub_one, Nat.testBit_shiftLeft, Nat.testBit_shiftRight]
  by_cases hi : k ≤ i
  · have hbit : i < 32 ∨ x.testBit i = false := by
      by_cases h32 : i < 32
      · exact .inl h32
      · exact .inr
          (Nat.testBit_lt_two_pow (lt_of_lt_of_le hx (Nat.pow_le_pow_right (by decide) (by omega))))
    rw [Nat.add_sub_cancel' hi]
    rcases hbit with h32 | hzero
    · simp [hi, h32]
    · simp [hzero]
  · simp [hi, Nat.lt_of_not_le hi]

theorem alignDown_addr (hk : k ≤ 32) (hx : 2 ^ k ∣ x) (s : Nat) :
    alignDown (2 ^ k - 1) (addr (s + (2 ^ k - 1 : Nat) + x)) = (x + roundUp (2 ^ k) s) % 2 ^
    32 := by
  have hpow : 0 < 2 ^ k := Nat.two_pow_pos k
  have hsum : addr (s + (2 ^ k - 1 : Nat) + x) = (x + s + (2 ^ k - 1)) % 2 ^ 32 := by
    rw [addr]
    omega
  have htop : 2 ^ 32 = 2 ^ k * 2 ^ (32 - k) := by rw [← pow_add, Nat.add_sub_cancel' hk]
  rw [hsum, alignDown_eq hk (Nat.mod_lt _ (by decide)), htop, Nat.mod_mul_right_div_self,
    ← Nat.mul_mod_mul_right, Nat.mul_comm (2 ^ (32 - k))]
  congr 1
  exact roundUp_add hx hpow

theorem alignDown_back (hk : k ≤ 32) (hx : 2 ^ k ∣ x) (hy : y < 2 ^ k) (h : x + y < 2 ^ 32) :
    alignDown (2 ^ k - 1) (x + y) = x := by
  have hpow : 0 < 2 ^ k := Nat.two_pow_pos k
  obtain ⟨n, rfl⟩ := hx
  rw [alignDown_eq hk h, Nat.mul_add_div hpow, Nat.div_eq_of_lt hy, Nat.add_zero, Nat.mul_comm]

end

end SwApi.Library
