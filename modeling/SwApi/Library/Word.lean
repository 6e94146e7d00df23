import Mathlib.Data.BitVec

/-! The bytes of a 32-bit word, the lowest first. -/
namespace SwApi.Library

def byteOf (w : BitVec 32) (r : Nat) : UInt8 := .ofBitVec ((w >>> (r * 8)).setWidth 8)

@[simp] theorem byteOf_zero (r : Nat) : byteOf 0 r = 0 := by
  simp [byteOf]

theorem byteOf_or (hr' : r' < 4) (w : BitVec 32) (b : UInt8) :
    byteOf (w ||| b.toBitVec.setWidth 32 <<< (r * 8)) r' =
      if r = r' then byteOf w r' ||| b else byteOf w r' := by
  apply UInt8.toBitVec_inj.1
  apply BitVec.eq_of_getLsbD_eq
  intro t ht
  have hin : r' * 8 + t < 32 := by omega
  split
  · subst r'
    have hplace : ¬r * 8 + t < r * 8 := by omega
    simp [byteOf, ht, hin, hplace]
  · have hout : b.toBitVec.getLsbD (r' * 8 + t - r * 8) = false ∨ r' * 8 + t < r * 8 := by
      rcases Nat.lt_or_ge r' r with h | h
      · exact .inr (by omega)
      · exact .inl (BitVec.getLsbD_of_ge _ _ (by omega))
    rcases hout with h | h <;> simp [byteOf, ht, hin, h]

theorem word_ext (h : ∀ r < 4, byteOf w r = byteOf w' r) : w = w' := by
  apply BitVec.eq_of_getLsbD_eq
  intro t ht
  have hbit := congrArg (fun b : UInt8 => b.toBitVec.getLsbD (t % 8)) (h (t / 8) (by omega))
  have ht' : t / 8 * 8 + t % 8 = t := by omega
  have hmod : t % 8 < 8 := Nat.mod_lt _ (by decide)
  simpa [byteOf, ht', hmod] using hbit

end SwApi.Library
