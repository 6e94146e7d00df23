import SwApi.Encrypt.Qrcode

/-! `EncodeBase64A` of `base64.c`, and what `DecodeBase64T` makes of its text. -/
namespace SwApi.Qrcode
open Library List Option

def storeAll (p : Bytes) (nIndex : Nat) : Bytes → Option Bytes
  | [] => some p
  | c :: s => do
      let p ← store p nIndex c
      storeAll p (nIndex + 1) s

/-- The loop over three bytes, and behind it the branches for one or two that are left. -/
def encodeLoop : Bytes → Bytes → Nat → Option Bytes
  | [], p, _ => some p
  | [a], p, n => storeAll p n [base64Digit (a >>> 2), base64Digit ((a &&& 3) <<< 4), 61, 61]
  | [a, b], p, n => storeAll p n
      [base64Digit (a >>> 2), base64Digit ((a &&& 3) <<< 4 ||| b >>> 4),
        base64Digit ((b &&& 0x0F) <<< 2), 61]
  | a :: b :: c :: s, p, n => do
      let p ← storeAll p n [base64Digit (a >>> 2), base64Digit ((a &&& 3) <<< 4 ||| b >>> 4),
        base64Digit ((b &&& 0x0F) <<< 2 ||| c >>> 6), base64Digit (c &&& 0x3F)]
      encodeLoop s p (n + 4)

def encodeBase64A (x : Bytes) : Option Bytes :=
  encodeLoop x (replicate (x.length * 8 % 2^32 / 6 + 4) 0) 0

/-- `DecodeBase64T` on bytes: without a count it measures the text, and it may read the byte behind
the text. -/
def decodeAnsi (data : Bytes) (nCount : Nat) : Option (Option Bytes × Nat) :=
  let nCount := if nCount = 0 then data.idxOf 0 else nCount
  if nCount < data.length then decodeBase64T (data.take nCount) else none

theorem storeAll_eq (pre rest s : Bytes) (h : s.length ≤ rest.length) :
    storeAll (pre ++ rest) pre.length s = some (pre ++ s ++ rest.drop s.length) := by
  induction s generalizing pre rest with
  | nil => simp [storeAll]
  | cons c s ih =>
    obtain ⟨x, rest, rfl⟩ := exists_cons_of_length_pos (Nat.zero_lt_of_lt h)
    have hnext := ih (pre ++ [c]) rest (Nat.le_of_succ_le_succ h)
    rw [length_append, append_assoc] at hnext
    rw [storeAll, store_append]
    simpa using hnext

theorem encodeLoop_eq (x pre rest : Bytes) (h : (base64 x).length ≤ rest.length) :
    encodeLoop x (pre ++ rest) pre.length = some (pre ++ base64 x ++ rest.drop
    (base64 x).length) := by
  fun_induction base64 x generalizing pre rest with
  | case1 => simp [encodeLoop]
  | case2 a =>
    have hzero : sextet₂ a 0 = (a &&& 3) <<< 4 := UInt8.or_zero
    rw [encodeLoop, ← hzero]
    exact storeAll_eq pre rest _ h
  | case3 a b =>
    have hzero : sextet₃ b 0 = (b &&& 0x0F) <<< 2 := UInt8.or_zero
    rw [encodeLoop, ← hzero]
    exact storeAll_eq pre rest _ h
  | case4 a b c s ih =>
    let four := [base64Digit (sextet₁ a), base64Digit (sextet₂ a b), base64Digit (sextet₃ b c),
      base64Digit (sextet₄ c)]
    have hfour := storeAll_eq pre rest four (Nat.le_trans (by simp [four]) h)
    have hrest := ih (pre ++ four) (rest.drop 4) (by simp at h ⊢; omega)
    rw [length_append] at hrest
    rw [encodeLoop]
    refine (congrArg (· >>= _) hfour).trans (hrest.trans ?_)
    simp [four, Nat.add_comm 4]

/-- No store of the two functions leaves its block, and no read the text with its NUL; the bytes
come back. -/
theorem base64_round_trip (x : Bytes) (hx : x.length < 2^28) : ∃ text rest ret,
    encodeBase64A x = some (text ++ 0 :: rest) ∧ (text ++ 0 :: rest).length = x.length * 8 / 6 + 4 ∧
      0 ∉ text ∧ text.length * 6 < 2^32 ∧ (x ++ ret).length = text.length * 6 / 8 + 1 ∧
      ∀ nCount, nCount = 0 ∨ nCount = text.length →
        decodeAnsi (text ++ [0]) nCount = some (some (x ++ ret), x.length) := by
  have hlength := base64_length x
  have hmod : x.length * 8 % 2^32 = x.length * 8 := Nat.mod_eq_of_lt (by omega)
  obtain ⟨k, hk⟩ := Nat.exists_eq_add_of_lt (show (base64 x).length < x.length * 8 / 6 + 4 by omega)
  have hencode := encodeLoop_eq x [] (replicate (x.length * 8 / 6 + 4) 0)
    (by rw [length_replicate]; omega)
  rw [drop_replicate, hk, Nat.add_assoc, Nat.add_sub_cancel_left, replicate_succ,
    nil_append] at hencode
  have hzero : 0 ∉ base64 x := fun h => absurd (mem_base64 h) (by decide)
  obtain ⟨m, hm, hdecode⟩ := decodeBase64T_base64 x
  refine ⟨base64 x, replicate k 0, replicate (m + 1) 0, ?_, ?_, hzero, by omega, ?_,
    fun nCount hcount => ?_⟩
  · rw [encodeBase64A, hmod, hk]
    exact hencode
  · rw [length_append, length_cons, length_replicate, hk, Nat.add_assoc]
  · rw [length_append, length_replicate, hm, Nat.add_assoc]
  · have hstrlen : (base64 x ++ [0]).idxOf 0 =
      (base64 x).length := by simp [idxOf_append_of_notMem hzero]
    have hgiven : (if nCount = 0 then (base64 x ++ [0]).idxOf 0 else nCount) =
      (base64 x).length := by
      rcases hcount with rfl | rfl <;> simp [hstrlen]
    simpa [decodeAnsi, hgiven] using hdecode

theorem base64_round_trip_three : ∃ text rest ret,
    encodeBase64A [1, 2, 3] = some (text ++ 0 :: rest) ∧
    decodeAnsi (text ++ [0]) 0 = some (some ([1, 2, 3] ++ ret), 3) := by
  obtain ⟨text, rest, ret, hencode, -, -, -, -, hdecode⟩ := base64_round_trip [1, 2, 3] (by decide)
  exact ⟨text, rest, ret, hencode, hdecode 0 (.inl rfl)⟩

end SwApi.Qrcode
