import Mathlib.Data.Nat.Bitwise

/-! Numbers up to 65804 in four bits and an extension of none, one or two bytes. The four bits are
the number itself below 13, and otherwise say how many bytes the extension has. -/
namespace SwApi.Library.Nibble

def nibble (v : Nat) : Nat := if v < 13 then v else if v < 269 then 13 else 14

def extension (v : Nat) : List UInt8 :=
  if v < 13 then []
  else if v < 269 then [UInt8.ofNat (v - 13)]
  else [UInt8.ofNat ((v - 269) / 256), UInt8.ofNat (v - 269)]

def limit : Nat := 65804

theorem widths (v : Nat) : (v < 13 ∧ nibble v = v ∧ extension v = []) ∨
    (13 ≤ v ∧ v < 269 ∧ nibble v = 13 ∧ extension v = [UInt8.ofNat (v - 13)]) ∨
    (269 ≤ v ∧ nibble v = 14 ∧ extension v = [UInt8.ofNat ((v - 269) / 256),
    UInt8.ofNat (v - 269)]) := by
  unfold nibble extension
  by_cases hsmall : v < 13
  · exact .inl ⟨hsmall, if_pos hsmall, if_pos hsmall⟩
  · rw [if_neg hsmall, if_neg hsmall]
    by_cases hmiddle : v < 269
    · exact .inr (.inl ⟨Nat.not_lt.1 hsmall, hmiddle, if_pos hmiddle, if_pos hmiddle⟩)
    · exact .inr (.inr ⟨Nat.not_lt.1 hmiddle, if_neg hmiddle, if_neg hmiddle⟩)

theorem nibble_lt (v : Nat) : nibble v < 15 := by
  rcases widths v with ⟨_, h, -⟩ | ⟨-, -, h, -⟩ | ⟨-, h, -⟩ <;> omega

theorem toNat_ofNat_of_lt (h : x < 256) : (UInt8.ofNat x).toNat = x := by
  rw [UInt8.toNat_ofNat']
  exact Nat.mod_eq_of_lt h

theorem forall_byte {P : UInt8 → Prop} (h : ∀ n < 256, P (UInt8.ofNat n)) (b : UInt8) : P b := by
  simpa using h b.toNat b.toNat_lt

theorem high_nibble : ∀ b : UInt8, ((b &&& 0xF0) >>> 4).toNat = b.toNat / 16 :=
  forall_byte (by decide +kernel)

theorem low_nibble : ∀ b : UInt8, (b &&& 0x0F).toNat = b.toNat % 16 :=
  forall_byte (by decide +kernel)

theorem top_bits : ∀ b : UInt8, ((b &&& 0xC0) >>> 6).toNat = b.toNat / 64 :=
  forall_byte (by decide +kernel)

theorem next_bits : ∀ b : UInt8, ((b &&& 0x30) >>> 4).toNat = b.toNat / 16 % 4 :=
  forall_byte (by decide +kernel)

end SwApi.Library.Nibble
