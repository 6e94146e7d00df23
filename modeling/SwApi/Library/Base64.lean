import Mathlib.Data.List.GetD
import Mathlib.Tactic.IntervalCases

/-! The base64 text of bytes, padded. -/
namespace SwApi.Library
open List

def base64Digits : List UInt8 :=
  [65, 66, 67, 68, 69, 70, 71, 72, 73, 74, 75, 76, 77, 78, 79, 80, 81, 82, 83, 84, 85, 86, 87, 88,
    89, 90,
   97, 98, 99, 100, 101, 102, 103, 104, 105, 106, 107, 108, 109, 110, 111, 112, 113, 114, 115, 116,
     117, 118,
   119, 120, 121, 122, 48, 49, 50, 51, 52, 53, 54, 55, 56, 57, 43, 47]

def base64Digit (n : UInt8) : UInt8 := base64Digits.getD n.toNat 0

/-! The four digits of three bytes. -/

def sextet₁ (a : UInt8) : UInt8 := a >>> 2
def sextet₂ (a b : UInt8) : UInt8 := (a &&& 3) <<< 4 ||| b >>> 4
def sextet₃ (b c : UInt8) : UInt8 := (b &&& 0x0F) <<< 2 ||| c >>> 6
def sextet₄ (c : UInt8) : UInt8 := c &&& 0x3F

def base64 : List UInt8 → List UInt8
  | [] => []
  | [a] => [base64Digit (sextet₁ a), base64Digit (sextet₂ a 0), 61, 61]
  | [a, b] => [base64Digit (sextet₁ a), base64Digit (sextet₂ a b), base64Digit (sextet₃ b 0), 61]
  | a :: b :: c :: s => base64Digit (sextet₁ a) :: base64Digit (sextet₂ a b) :: base64Digit
    (sextet₃ b c) :: base64Digit (sextet₄ c) :: base64 s

theorem byte_ext {a b : UInt8} (h : ∀ i < 8, a.toBitVec.getLsbD i = b.toBitVec.getLsbD i) : a = b :=
  UInt8.toBitVec_inj.1 (BitVec.eq_of_getLsbD_eq h)

theorem lt_of_masked {x : UInt8} (h : x &&& 0x3F = x) : x.toNat < 64 := by
  rw [← h, UInt8.toNat_and]
  exact Nat.lt_of_le_of_lt Nat.and_le_right (by decide)

section
variable (a b c : UInt8)

theorem sextet₁_lt : (sextet₁ a).toNat < 64 := by
  refine lt_of_masked (byte_ext fun i hi => ?_)
  interval_cases i <;> simp [sextet₁]

theorem sextet₂_lt : (sextet₂ a b).toNat < 64 := by
  refine lt_of_masked (byte_ext fun i hi => ?_)
  interval_cases i <;> simp [sextet₂]

theorem sextet₃_lt : (sextet₃ b c).toNat < 64 := by
  refine lt_of_masked (byte_ext fun i hi => ?_)
  interval_cases i <;> simp [sextet₃]

theorem sextet₄_lt : (sextet₄ c).toNat < 64 := by
  refine lt_of_masked (byte_ext fun i hi => ?_)
  interval_cases i <;> simp [sextet₄]

theorem byte_of_sextets₁ : sextet₁ a <<< 2 ||| sextet₂ a b >>> 4 = a := by
  refine byte_ext fun i hi => ?_
  interval_cases i <;> simp [sextet₁, sextet₂]

theorem byte_of_sextets₂ : (sextet₂ a b &&& 0x0F) <<< 4 ||| sextet₃ b c >>> 2 = b := by
  refine byte_ext fun i hi => ?_
  interval_cases i <;> simp [sextet₂, sextet₃]

theorem byte_of_sextets₃ : (sextet₃ b c &&& 3) <<< 6 ||| sextet₄ c = c := by
  refine byte_ext fun i hi => ?_
  interval_cases i <;> simp [sextet₃, sextet₄]

/-- The bits behind the last byte are 0. -/
theorem sextets_end : (sextet₂ a 0 &&& 0x0F) <<< 4 = 0 ∧ (sextet₃ b 0 &&& 3) <<< 6 = 0 := by
  constructor <;>
    · refine byte_ext fun i hi => ?_
      interval_cases i <;> simp [sextet₂, sextet₃]

end

theorem base64Digit_mem (h : n.toNat < 64) : base64Digit n ∈ base64Digits := by
  rw [base64Digit, getD_eq_getElem _ _ h]
  exact getElem_mem _

/-- The text has no bytes but digits and padding. -/
theorem mem_base64 (h : d ∈ base64 s) : d ∈ base64Digits ∨ d = 61 := by
  fun_induction base64 s with
  | case1 => cases h
  | case2 a | case3 a b =>
    simp only [mem_cons, not_mem_nil, or_false] at h
    rcases h with rfl | rfl | rfl | rfl <;> simp [base64Digit_mem, sextet₁_lt, sextet₂_lt,
      sextet₃_lt]
  | case4 a b c s ih =>
    simp only [mem_cons] at h
    rcases h with rfl | rfl | rfl | rfl | h
    exacts [.inl (base64Digit_mem (sextet₁_lt a)), .inl (base64Digit_mem (sextet₂_lt a b)),
      .inl (base64Digit_mem (sextet₃_lt b c)), .inl (base64Digit_mem (sextet₄_lt c)), ih h]

theorem base64_length (s : List UInt8) : (base64 s).length = (s.length + 2) / 3 * 4 := by
  fun_induction base64 s with
  | case1 | case2 | case3 => simp
  | case4 a b c s ih =>
    simp only [length_cons, ih]
    omega

end SwApi.Library
