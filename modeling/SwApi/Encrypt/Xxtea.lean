import Mathlib.Data.Set.Finite.List
import SwApi.Library.Block
import SwApi.Library.Bytes
import SwApi.Library.CString
import SwApi.Library.Lists
import SwApi.Library.Nibble
import SwApi.Library.Word

/-! `en_xxtea` and `de_xxtea` of `xxtea_string.c`. `none` stands for an access behind the end of an
array on the stack. -/
namespace SwApi.Encrypt
open Library List Option

abbrev Words := List (BitVec 32)

def hexbytes (n : Nat) : UInt8 :=
  [48, 49, 50, 51, 52, 53, 54, 55, 56, 57, 65, 66, 67, 68, 69, 70].getD n 0

def hexDigit (c : UInt8) : Option UInt8 :=
  if 48 ≤ c ∧ c ≤ 57 then some (c - 48)
  else if 97 ≤ c ∧ c ≤ 102 then some (c - 97 + 10)
  else if 65 ≤ c ∧ c ≤ 70 then some (c - 65 + 10)
  else none

/-- What `hex2bin` has written, and the number of bytes. -/
def hexLoop : Bytes → Bytes → Nat → Bool → Option (Bytes × Nat)
  | [], dst, dpos, _ => some (dst, dpos)
  | c :: src, dst, dpos, islow =>
      match hexDigit c with
      | none => none
      | some d =>
          if islow then hexLoop src (dst.set dpos (dst.getD dpos 0 <<< 4 + d)) (dpos + 1) false
          else hexLoop src (dst.set dpos d) dpos true

def hex2bin (src dst : Bytes) : Bytes × Nat :=
  if src.length % 2 = 1 then (dst, 0) else (hexLoop src dst 0 false).getD (dst, 0)

/-- The loop of `en_xxtea`: the bytes become their text in place, the last one first. -/
def hexExpand : Nat → Bytes → Bytes
  | 0, enstr => enstr
  | j+1, enstr =>
      let enstr := enstr.set (2 * j + 1) (hexbytes (enstr.getD j 0 &&& 0x0F).toNat)
      hexExpand j (enstr.set (2 * j) (hexbytes (enstr.getD j 0 >>> 4).toNat))

def packLoop (pdat : Bytes) : Nat → Words → Words
  | 0, v => v
  | i+1, v =>
      let v := packLoop pdat i v
      v.set (i / 4) (v.getD (i / 4) 0 ||| (pdat.getD i 0).toBitVec.setWidth 32 <<< (i % 4 * 8))

def toIntArray (presult : Words) (pdat : Bytes) (dl : Nat) (inclen : Bool) : Words × Nat :=
  if dl = 0 then (presult, 0)
  else
    let n := if dl % 4 = 0 then dl / 4 else dl / 4 + 1
    let presult := if inclen then presult.set n (.ofNat 32 dl) else presult
    (packLoop pdat dl presult, if inclen then n + 1 else n)

def unpack (pdat : Words) (n : Nat) : Bytes :=
  (range n).map fun i => byteOf (pdat.getD (i / 4) 0) (i % 4)

def toByteArray (presult : Bytes) (pdat : Words) (dl : Nat) (inclen : Bool) : Bytes × Nat :=
  let n := dl * 4
  if inclen ∧ n < (pdat.getD (dl - 1) 0).toNat then (presult, 0)
  else
    let n := if inclen then (pdat.getD (dl - 1) 0).toNat else n
    (overwrite presult 0 (unpack pdat n), n)

def delta : BitVec 32 := 0x9E3779B9

def mx (k : Words) (sum : BitVec 32) (p : Nat) (z y : BitVec 32) : BitVec 32 :=
  ((z >>> 5 ^^^ y <<< 2) + (y >>> 3 ^^^ z <<< 4)) ^^^
    ((sum ^^^ y) + (k.getD ((p &&& 3) ^^^ (sum >>> 2 &&& 3).toNat) 0 ^^^ z))

/-- The words before the `p`-th one in a round of `raw_encrypt`, and `z`. -/
def encryptLoop (k : Words) (sum : BitVec 32) : Nat → Words × BitVec 32 → Words × BitVec 32
  | 0, s => s
  | p+1, s =>
      let (v, z) := encryptLoop k sum p s
      let x := v.getD p 0 + mx k sum p z (v.getD (p + 1) 0)
      (v.set p x, x)

def encryptRound (k : Words) (n : Nat) (sum : BitVec 32) (s : Words × BitVec 32) :
    Words × BitVec 32 :=
  let (v, z) := encryptLoop k sum n s
  let x := v.getD n 0 + mx k sum n z (v.getD 0 0)
  (v.set n x, x)

def encryptRounds (k : Words) (n : Nat) : Nat → BitVec 32 → Words × BitVec 32 → Words
  | 0, _, s => s.1
  | q+1, sum, s => encryptRounds k n q (sum + delta) (encryptRound k n (sum + delta) s)

def rawEncrypt (v : Words) (vlen : Nat) (k : Words) : Words :=
  let n := vlen - 1
  if n < 1 then v else encryptRounds k n (6 + 52 / (n + 1)) 0 (v, v.getD n 0)

/-- The words from the `p`-th one down to the second in a round of `raw_decrypt`, and `y`. -/
def decryptLoop (k : Words) (sum : BitVec 32) : Nat → Words × BitVec 32 → Words × BitVec 32
  | 0, s => s
  | p+1, (v, y) =>
      let x := v.getD (p + 1) 0 - mx k sum (p + 1) (v.getD p 0) y
      decryptLoop k sum p (v.set (p + 1) x, x)

def decryptRound (k : Words) (n : Nat) (sum : BitVec 32) (s : Words × BitVec 32) :
    Words × BitVec 32 :=
  let (v, y) := decryptLoop k sum n s
  let x := v.getD 0 0 - mx k sum 0 (v.getD n 0) y
  (v.set 0 x, x)

/-- `delta` is odd: the sum is 0 after less than 2^32 rounds. -/
def decryptRounds (k : Words) (n : Nat) : Nat → BitVec 32 → Words × BitVec 32 → Option Words
  | 0, _, _ => none
  | fuel+1, sum, s =>
      if sum = 0 then some s.1 else decryptRounds k n fuel (sum - delta) (decryptRound k n sum s)

def rawDecrypt (v : Words) (vlen : Nat) (k : Words) : Option Words :=
  let n := vlen - 1
  if n < 1 then some v
  else decryptRounds k n (2 ^ 32) (.ofNat 32 (6 + 52 / (n + 1)) * delta) (v, v.getD 0 0)

/-- `_data` and `_key` hold 128 and 8 words. -/
def xxteaEncrypt (presult pdat : Bytes) (dl : Nat) (pkey : Bytes) (kl : Nat) :
    Option (Bytes × Nat) :=
  if kl = 0 then some (presult, 0)
  else
    let (data, datalen) := toIntArray (replicate 128 0) pdat (dl % 2 ^ 16) true
    let (key, keylen) := toIntArray (replicate 8 0) pkey (kl % 2 ^ 16) false
    if 128 < datalen ∨ 8 < keylen then none
    else if 0 < keylen ∧ 0 < datalen then
      some (toByteArray presult (rawEncrypt data datalen key) datalen false)
    else some (presult, 0)

def xxteaDecrypt (pdat : Bytes) (dl : Nat) (pkey : Bytes) (kl : Nat) : Option (Bytes × Nat) :=
  if kl = 0 then some (pdat, 0)
  else
    let (data, datalen) := toIntArray (replicate 128 0) pdat (dl % 2 ^ 16) false
    let (key, keylen) := toIntArray (replicate 8 0) pkey (kl % 2 ^ 16) false
    if 128 < datalen ∨ 8 < keylen then none
    else if 0 < datalen ∧ 0 < keylen then
      (rawDecrypt data datalen key).map fun data => toByteArray pdat data datalen true
    else some (pdat, 0)

def teaEnstrMax : Nat := 512

def enXxtea (buf key : Bytes) : Option (Int × Bytes) := do
  let (enstr, nret) ← xxteaEncrypt (replicate teaEnstrMax 0) buf buf.length key key.length
  some (1, hexExpand (min nret (teaEnstrMax / 2)) enstr)

def deXxtea (buf key : Bytes) (outLen : Int) : Option (Int × Bytes) :=
  if teaEnstrMax * 2 < buf.length then some (0, [])
  else
    let (enstr, len) := hex2bin buf (replicate teaEnstrMax 0)
    if len = 0 then some (0, [])
    else do
      let (enstr, nret) ← xxteaDecrypt enstr len key key.length
      if teaEnstrMax ≤ nret then none
      else
        let s := (cstring (enstr.set nret 0)).bytes
        if outLen % 2 ^ 32 < s.length then some (0, []) else some (1, s)

section
variable {sum : BitVec 32}

def wordBefore (v : Words) (z : BitVec 32) : Nat → BitVec 32
  | 0 => z
  | i+1 => v.getD i 0

theorem wordBefore_set (hp : p < v.length) (hi : i ≤ p) :
    wordBefore (v.set p x) z i = wordBefore v z i := by
  cases i with
  | zero => rfl
  | succ i => exact (getD_set hp x i 0).trans (if_neg (by omega))

theorem encryptLoop_spec (hp : p < v.length) :
    ∃ t, encryptLoop k sum p (v, z) = (t, wordBefore t z p) ∧ t.length = v.length ∧
      (∀ i, p ≤ i → t.getD i 0 = v.getD i 0) ∧
      ∀ i < p, t.getD i 0 = v.getD i 0 + mx k sum i (wordBefore t z i) (v.getD (i + 1) 0) := by
  induction p with
  | zero => exact ⟨v, rfl, rfl, fun _ _ => rfl, fun i hi => absurd hi (Nat.not_lt_zero i)⟩
  | succ p ih =>
    obtain ⟨t, hloop, hlength, hlater, hmixed⟩ := ih (by omega)
    have hpt : p < t.length := by omega
    refine ⟨t.set p (t.getD p 0 + mx k sum p (wordBefore t z p) (t.getD (p + 1) 0)), ?_,
      (length_set ..).trans hlength, ?_, ?_⟩
    · rw [encryptLoop, hloop]
      exact Prod.ext rfl ((getD_set hpt _ p 0).trans (if_pos rfl)).symm
    · intro i hi
      rw [getD_set hpt, if_neg (by omega), hlater i (by omega)]
    · intro i hi
      rw [getD_set hpt, wordBefore_set hpt (by omega)]
      split
      · subst i
        rw [hlater p (Nat.le_refl p), hlater (p + 1) (by omega)]
      · exact hmixed i (by omega)

structure Mixed (k : Words) (n : Nat) (sum : BitVec 32) (v w : Words) : Prop where
  length : w.length = v.length
  later : ∀ i, n < i → w.getD i 0 = v.getD i 0
  mixed : ∀ i ≤ n, w.getD i 0 = v.getD i 0 +
    mx k sum i (wordBefore w (v.getD n 0) i) (if i = n then w.getD 0 0 else v.getD (i + 1) 0)

theorem encryptRound_mixed (k : Words) (sum : BitVec 32) (hn : 0 < n) (hv : n < v.length) :
    ∃ w, encryptRound k n sum (v, v.getD n 0) = (w, w.getD n 0) ∧ Mixed k n sum v w := by
  obtain ⟨t, hloop, hlength, hlater, hmixed⟩ := encryptLoop_spec hv
  have hnt : n < t.length := by omega
  refine ⟨t.set n (t.getD n 0 + mx k sum n (wordBefore t (v.getD n 0) n) (t.getD 0 0)), ?_,
    (length_set ..).trans hlength, ?_, ?_⟩
  · rw [encryptRound, hloop]
    exact Prod.ext rfl ((getD_set hnt _ n 0).trans (if_pos rfl)).symm
  · intro i hi
    rw [getD_set hnt, if_neg (by omega), hlater i (by omega)]
  · intro i hi
    rw [getD_set hnt, getD_set hnt, if_neg (show ¬0 = n by omega), wordBefore_set hnt hi]
    split
    · subst i
      rw [hlater n (Nat.le_refl n)]
    · exact hmixed i (by omega)

/-- The loop of the inverse takes the words from the last one on back. -/
theorem Mixed.decryptLoop (h : Mixed k n sum v w) (hn : 0 < n) (hv : n < v.length) (hp : p ≤ n)
    (hlength : u.length = v.length) (hleft : ∀ i ≤ p, u.getD i 0 = w.getD i 0)
    (hback : ∀ i, p < i → u.getD i 0 = v.getD i 0)
    (hy : y = if p = n then w.getD 0 0 else v.getD (p + 1) 0) :
    decryptLoop k sum p (u, y) = (v.set 0 (w.getD 0 0), v.getD 1 0) := by
  induction p generalizing u y with
  | zero =>
    rw [if_neg (by omega)] at hy
    refine Prod.ext (ext_getD (hlength.trans (length_set ..).symm) 0 fun i => ?_) hy
    rw [getD_set (by omega)]
    split
    · subst i
      exact hleft 0 (Nat.le_refl 0)
    · exact hback i (by omega)
  | succ p ih =>
    have hx : u.getD (p + 1) 0 - mx k sum (p + 1) (u.getD p 0) y = v.getD (p + 1) 0 := by
      rw [hleft (p + 1) (Nat.le_refl _), hleft p (by omega), h.mixed (p + 1) hp, ← hy]
      exact BitVec.add_sub_cancel _ _
    have hpu : p + 1 < u.length := by omega
    rw [Encrypt.decryptLoop, hx]
    refine ih (by omega) (by rw [length_set, hlength]) ?_ ?_ (by rw [if_neg (by omega)])
    · intro i hi
      rw [getD_set hpu, if_neg (by omega), hleft i (by omega)]
    · intro i hi
      rw [getD_set hpu]
      split
      · subst i
        rfl
      · exact hback i (by omega)

theorem Mixed.decryptRound (h : Mixed k n sum v w) (hn : 0 < n) (hv : n < v.length) :
    decryptRound k n sum (w, w.getD 0 0) = (v, v.getD 0 0) := by
  have hx : w.getD 0 0 - mx k sum 0 (v.getD n 0) (v.getD 1 0) = v.getD 0 0 := by
    rw [h.mixed 0 (Nat.zero_le n), if_neg (by omega)]
    exact BitVec.add_sub_cancel _ _
  have h0 : 0 < v.length := by omega
  have hset : v.set 0 (v.getD 0 0) = v := by
    refine ext_getD (length_set ..) 0 fun i => ?_
    rw [getD_set h0]
    split <;> simp [*]
  rw [Encrypt.decryptRound, h.decryptLoop hn hv (Nat.le_refl n) h.length (fun _ _ => rfl) h.later
    (by rw [if_pos rfl])]
  simp only [getD_set h0, if_true, if_neg (show n ≠ 0 by omega), hx, set_set, hset]

/-- The rounds of the inverse take the sum and the words back, as long as the sum is not 0 early. -/
theorem encryptRounds_undone (k : Words) (hn : 0 < n) (hv : n < v.length)
    (hsum : ∀ j, 0 < j → j ≤ q → sum + .ofNat 32 j * delta ≠ 0) (fuel : Nat) :
    ∃ w, encryptRounds k n q sum (v, v.getD n 0) = w ∧ w.length = v.length ∧
      (∀ i, n < i → w.getD i 0 = v.getD i 0) ∧
      decryptRounds k n (fuel + q) (sum + .ofNat 32 q * delta) (w, w.getD 0 0) =
        decryptRounds k n fuel sum (v, v.getD 0 0) := by
  induction q generalizing v sum fuel with
  | zero => exact ⟨v, rfl, rfl, fun _ _ => rfl, by simp⟩
  | succ q ih =>
    have hshift (j : Nat) : sum + .ofNat 32 (j + 1) * delta = sum + delta + .ofNat 32 j *
      delta := by
      rw [BitVec.ofNat_add, BitVec.add_mul]
      simp [BitVec.add_assoc, BitVec.add_comm delta]
    obtain ⟨v', hround, hmixed⟩ := encryptRound_mixed k (sum + delta) hn hv
    obtain ⟨w, hw, hlength, hlater, hback⟩ := ih (hv.trans_eq hmixed.length.symm)
      (fun j hj hjq => by rw [← hshift]; exact hsum (j + 1) (by omega) (by omega)) (fuel + 1)
    refine ⟨w, by rw [encryptRounds, hround, hw], hlength.trans hmixed.length,
      fun i hi => (hlater i hi).trans (hmixed.later i hi), ?_⟩
    have hfirst : sum + delta ≠ 0 := by simpa using hsum 1 (by omega) (by omega)
    rw [hshift, show fuel + (q + 1) = fuel + 1 + q by omega, hback, decryptRounds, if_neg hfirst,
      hmixed.decryptRound hn hv, BitVec.add_sub_cancel]

theorem rawEncrypt_undone (k : Words) (hn : 1 < n) (hv : n ≤ v.length) :
    (rawEncrypt v n k).length = v.length ∧ (∀ i, n ≤ i → (rawEncrypt v n k).getD i 0 = v.getD i 0) ∧
      rawDecrypt (rawEncrypt v n k) n k = some v := by
  have hq : 6 + 52 / (n - 1 + 1) ≤ 32 := by
    have : 52 / (n - 1 + 1) ≤ 52 / 2 := Nat.div_le_div_left (by omega) (by decide)
    omega
  have hsum : ∀ j, 0 < j → j ≤ 6 + 52 / (n - 1 + 1) →
    (0 : BitVec 32) + .ofNat 32 j * delta ≠ 0 := by
    have hall : ∀ j < 33, 0 < j → (0 : BitVec 32) + .ofNat 32 j * delta ≠ 0 := by decide
    intro j hj hjq
    exact hall j (by omega) hj
  obtain ⟨w, hw, hlength, hlater, hback⟩ := encryptRounds_undone k (v := v) (n := n - 1) (by omega)
    (by omega) hsum (2 ^ 32 - (6 + 52 / (n - 1 + 1)))
  have hraw : rawEncrypt v n k = w := by rw [rawEncrypt, if_neg (by omega), hw]
  rw [hraw]
  refine ⟨hlength, fun i hi => hlater i (by omega), ?_⟩
  have hzero (x : BitVec 32) : 0 + x = x := BitVec.zero_add x
  rw [Nat.sub_add_cancel (by omega), hzero] at hback
  rw [rawDecrypt, if_neg (by omega), hback]
  obtain ⟨fuel, hfuel⟩ : ∃ fuel, 2 ^ 32 - (6 + 52 / (n - 1 + 1)) = fuel + 1 :=
    ⟨2 ^ 32 - (6 + 52 / (n - 1 + 1)) - 1, by omega⟩
  rw [hfuel]
  rfl

/-- Decryption ends on every block, whether it was encrypted or not, and encryption undoes it. -/
theorem rawDecrypt_undone (k : Words) (hv : 1 < v.length) :
    ∃ w, w.length = v.length ∧ rawDecrypt v v.length k = some w ∧ rawEncrypt w v.length k = v := by
  have hundone (w : Words) (hw : w.length = v.length) := rawEncrypt_undone k hv hw.ge
  have hfinite : Finite (BitVec 32) := .of_injective BitVec.toFin fun _ _ => BitVec.eq_of_toFin_eq
  -- the blocks of one length are finitely many, and no two of them are encrypted alike
  have hinjective : Set.InjOn (rawEncrypt · v.length k) {w | w.length = v.length} := by
    intro w hw w' hw' heq
    have hback := congrArg (rawDecrypt · v.length k) heq
    exact some.inj ((hundone w hw).2.2.symm.trans (hback.trans (hundone w' hw').2.2))
  obtain ⟨w, hw, heq⟩ := (((finite_length_eq (BitVec 32) v.length).injOn_iff_bijOn_of_mapsTo
    fun w hw => (hundone w hw).1.trans hw).1 hinjective).surjOn (rfl : v.length = v.length)
  have hback := congrArg (rawDecrypt · v.length k) heq
  exact ⟨w, hw, hback.symm.trans (hundone w hw).2.2, heq⟩

theorem rawDecrypt_undone_zero : ∃ w, w.length = 2 ∧ rawDecrypt [0, 0] 2 [1] = some w ∧
    rawEncrypt w 2 [1] = [0, 0] :=
  rawDecrypt_undone (v := [0, 0]) [1] (by decide)

end

theorem packLoop_spec (hi : i ≤ 4 * v.length) :
    (packLoop pdat i v).length = v.length ∧ ∀ j r, r < 4 → byteOf ((packLoop pdat i v).getD j 0) r =
      if 4 * j + r < i then byteOf (v.getD j 0) r ||| pdat.getD (4 * j + r) 0
      else byteOf (v.getD j 0) r := by
  induction i with
  | zero => exact ⟨rfl, fun _ _ _ => rfl⟩
  | succ i ih =>
    obtain ⟨hlength, hbyte⟩ := ih (by omega)
    rw [packLoop]
    refine ⟨(length_set ..).trans hlength, ?_⟩
    intro j r hr
    rw [getD_set (by omega)]
    split
    · rename_i hj
      rw [byteOf_or hr, hbyte _ _ hr, ← hj]
      rcases Nat.lt_trichotomy (4 * j + r) i with h | h | h
      · rw [if_neg (by omega), if_pos h, if_pos (by omega)]
      · rw [if_pos (by omega), if_neg (by omega), if_pos (by omega), h]
      · rw [if_neg (by omega), if_neg (by omega), if_neg (by omega)]
    · rw [hbyte j r hr]
      congr 1
      exact propext ⟨fun h => by omega, fun h => by omega⟩

def hexText (s : Bytes) : Bytes :=
  s.flatMap fun b : UInt8 => [hexbytes (b >>> 4).toNat, hexbytes (b &&& 0x0F).toNat]

theorem hexText_length : (hexText s).length = 2 * s.length := by
  simp [hexText, Nat.mul_comm]

theorem drop_set_set {l : Bytes} (h : j + 1 < l.length) (x y : UInt8) :
    ((l.set (j + 1) x).set j y).drop j = y :: x :: l.drop (j + 2) := by
  induction j generalizing l with
  | zero =>
    obtain ⟨a, l, rfl⟩ := exists_cons_of_length_pos (Nat.zero_lt_of_lt h)
    obtain ⟨b, l, rfl⟩ := exists_cons_of_length_pos (Nat.lt_of_succ_lt_succ h)
    rfl
  | succ j ih =>
    cases l with
    | nil => simp at h
    | cons a l => exact ih (by simpa using h)

theorem hexExpand_text (s rest : Bytes) (h : s.length ≤ rest.length) :
    hexExpand s.length (s ++ rest) = hexText s ++ rest.drop s.length := by
  induction s using reverseRecOn generalizing rest with
  | nil => rfl
  | append_singleton s b ih =>
    rw [length_append, length_singleton] at h
    have hget : (s ++ [b] ++ rest).getD s.length 0 = b := by simp
    have hget' (x : UInt8) : ((s ++ [b] ++ rest).set (2 * s.length + 1) x).getD s.length 0 = b := by
      rw [getD_set (by simp; omega), if_neg (by omega), hget]
    have hset (x y : UInt8) : ((s ++ [b] ++ rest).set (2 * s.length + 1) x).set (2 * s.length) y =
        s ++ ((b :: rest).set (s.length + 1) x).set s.length y := by
      rw [append_assoc, set_append_right _ _ (by omega), set_append_right _ _ (by omega)]
      congr 3 <;> omega
    rw [length_append, length_singleton, hexExpand]
    simp only [hget, hget', hset]
    rw [ih _ (by simp; omega), drop_set_set (by simp; omega)]
    simp [hexText]

theorem hexDigit_hexbytes : ∀ n < 16, hexDigit (hexbytes n) = some (.ofNat n) := by decide

theorem hexLoop_text (s src pre rest : Bytes) (h : s.length ≤ rest.length) :
    hexLoop (hexText s ++ src) (pre ++ rest) pre.length false =
      hexLoop src (pre ++ s ++ rest.drop s.length) (pre.length + s.length) false := by
  induction s generalizing pre rest with
  | nil => simp [hexText]
  | cons b s ih =>
    obtain ⟨r, rest, rfl⟩ : ∃ r t, rest = r :: t := exists_cons_of_length_pos (by simp at h; omega)
    have hb := b.toNat_lt
    have hshift : (b >>> 4).toNat = b.toNat / 16 := by
      rw [UInt8.toNat_shiftRight, Nat.shiftRight_eq_div_pow]
      rfl
    have hhigh := hexDigit_hexbytes (b >>> 4).toNat (by omega)
    have hlow := hexDigit_hexbytes (b &&& 0x0F).toNat (by rw [Nibble.low_nibble]; omega)
    have hbyte : UInt8.ofNat (b >>> 4).toNat <<< 4 + UInt8.ofNat (b &&& 0x0F).toNat = b := by
      rw [UInt8.ofNat_toNat, UInt8.ofNat_toNat]
      apply UInt8.toNat_inj.1
      rw [UInt8.toNat_add, UInt8.toNat_shiftLeft, hshift, Nibble.low_nibble, Nat.shiftLeft_eq]
      simp
      omega
    have hset (x y : UInt8) : (pre ++ x :: rest).set pre.length y = pre ++ y :: rest := by simp
    have hget (x : UInt8) : (pre ++ x :: rest).getD pre.length 0 = x := by simp
    rw [hexText, flatMap_cons, ← hexText]
    simp only [cons_append, nil_append, hexLoop, hhigh, hlow, hset, hget, hbyte, if_true]
    rw [if_neg (by decide)]
    have hnext := ih (pre ++ [b]) rest (by simpa using h)
    simpa [Nat.add_assoc, Nat.add_comm 1] using hnext

@[simp] theorem unpack_length : (unpack w n).length = n := by simp [unpack]

theorem unpack_getD (hi : i < n) : (unpack w n).getD i 0 = byteOf (w.getD (i / 4) 0) (i % 4) := by
  simp [unpack, getD_eq_getElem?_getD, hi]

theorem replicate_getD : (replicate m (0 : BitVec 32)).getD j 0 = 0 := by
  simp [getD_eq_getElem?_getD, getElem?_replicate]
  split <;> rfl

theorem toIntArray_text (hs : 1 ≤ s.length ∧ s.length ≤ 252) :
    ∃ data m, toIntArray (replicate 128 0) s s.length true = (data, m + 1) ∧ 0 < m ∧ m ≤ 63 ∧
      s.length ≤ 4 * m ∧ data.length = 128 ∧ unpack data s.length = s ∧
      data.getD m 0 = .ofNat 32 s.length ∧ ∀ j, m < j → data.getD j 0 = 0 := by
  obtain ⟨m, hm, hpos, hle, hfit⟩ :
    ∃ m, (if s.length % 4 = 0 then s.length / 4 else s.length / 4 + 1) = m ∧
      0 < m ∧ m ≤ 63 ∧ s.length ≤ 4 * m := by
    refine ⟨_, rfl, ?_⟩
    split <;> omega
  have hzeros : m < (replicate 128 (0 : BitVec 32)).length := by
    rw [length_replicate]
    omega
  obtain ⟨hlength, hbyte⟩ := packLoop_spec (v := (replicate 128 0).set m (.ofNat 32 s.length))
    (i := s.length) (by rw [length_set, length_replicate]; omega)
  rw [length_set, length_replicate] at hlength
  refine ⟨packLoop s s.length ((replicate 128 0).set m (.ofNat 32 s.length)), m,
    by rw [toIntArray, if_neg (by omega), hm]; rfl, hpos, hle, hfit, hlength, ?_, ?_, ?_⟩
  · apply ext_getD (unpack_length ..) 0
    intro i
    rcases Nat.lt_or_ge i s.length with hi | hi
    · rw [unpack_getD hi, hbyte _ _ (by omega), if_pos (by omega), getD_set hzeros,
        if_neg (by omega),
        replicate_getD, byteOf_zero, show 4 * (i / 4) + i % 4 = i by omega, UInt8.zero_or]
    · rw [getD_eq_default _ _ (by simpa using hi), getD_eq_default _ _ hi]
  · apply word_ext
    intro r hr
    rw [hbyte _ _ hr, if_neg (by omega), getD_set hzeros, if_pos rfl]
  · intro j hj
    apply word_ext
    intro r hr
    rw [hbyte _ _ hr, if_neg (by omega), getD_set hzeros, if_neg (by omega), replicate_getD]

theorem toIntArray_unpack (w : Words) (hw : w.length = 128) (hn : 0 < n ∧ n ≤ 128)
    (hzero : ∀ j, n ≤ j → w.getD j 0 = 0) (rest : Bytes) :
    toIntArray (replicate 128 0) (unpack w (n * 4) ++ rest) (n * 4) false = (w, n) := by
  obtain ⟨hlength, hbyte⟩ := packLoop_spec (v := replicate 128 0) (i := n * 4)
    (by rw [length_replicate]; omega)
  have hwords : packLoop (unpack w (n * 4) ++ rest) (n * 4) (replicate 128 0) = w := by
    apply ext_getD (by rw [hlength, hw]; rfl) 0
    intro j
    apply word_ext
    intro r hr
    rw [hbyte j r hr, replicate_getD, byteOf_zero]
    split
    · rename_i hi
      rw [getD_append _ _ _ _ (by simpa using hi), unpack_getD hi,
        show (4 * j + r) / 4 = j by omega, show (4 * j + r) % 4 = r by omega, UInt8.zero_or]
    · rw [hzero j (by omega), byteOf_zero]
  rw [toIntArray, if_neg (by omega)]
  simp only [Bool.false_eq_true, if_false, hwords]
  rw [if_pos (by omega), show n * 4 / 4 = n by omega]

theorem overwrite_zero (h : data.length ≤ rest.length) :
    overwrite rest 0 data = data ++ rest.drop data.length := by
  rw [overwrite_eq (by omega)]
  simp

theorem xxtea_inverse (hlen : 1 ≤ plain.length ∧ plain.length ≤ 252) (hkey : 1 ≤ key.length ∧
    key.length ≤ 32) : ∃ cipher : Bytes, plain.length ≤ cipher.length ∧ cipher.length ≤ 256 ∧
      (∀ presult : Bytes, cipher.length ≤ presult.length →
        xxteaEncrypt presult plain plain.length key key.length =
          some (cipher ++ presult.drop cipher.length, cipher.length)) ∧
      ∀ rest, xxteaDecrypt (cipher ++ rest) cipher.length key key.length =
        some (plain ++ (cipher ++ rest).drop plain.length, plain.length) := by
  obtain ⟨data, m, hdata, hpos, hle, hfit, hlength, hunpack, hsize, hbehind⟩ := toIntArray_text hlen
  obtain ⟨kw, kn, hkw, hkn⟩ : ∃ kw kn, toIntArray (replicate 8 0) key key.length false = (kw, kn) ∧
      0 < kn ∧ kn ≤ 8 := by
    refine ⟨_, _, by rw [toIntArray, if_neg (by omega)], ?_⟩
    simp only [Bool.false_eq_true, if_false]
    split <;> omega
  obtain ⟨hwlength, hwlater, hback⟩ := rawEncrypt_undone (v := data) (n := m + 1) kw (by omega)
    (by omega)
  generalize hw : rawEncrypt data (m + 1) kw = w at hwlength hwlater hback
  have hplain : plain.length % 2 ^ 16 = plain.length := Nat.mod_eq_of_lt (by omega)
  have hkey' : key.length % 2 ^ 16 = key.length := Nat.mod_eq_of_lt (by omega)
  have hcipher : (m + 1) * 4 % 2 ^ 16 = (m + 1) * 4 := Nat.mod_eq_of_lt (by omega)
  refine ⟨unpack w ((m + 1) * 4), ?_⟩
  rw [unpack_length]
  refine ⟨by omega, by omega, ?_, ?_⟩
  · intro presult hroom
    rw [xxteaEncrypt, if_neg (by omega), hplain, hkey', hdata, hkw]
    simp only
    rw [if_neg (by omega), if_pos (by omega), hw, toByteArray, if_neg (by simp)]
    simp only [Bool.false_eq_true, if_false]
    rw [overwrite_zero (by rwa [unpack_length]), unpack_length]
  · intro rest
    have hpack := toIntArray_unpack w (hwlength.trans hlength) (n := m + 1) (by omega)
      (fun j hj => (hwlater j hj).trans (hbehind j (by omega))) rest
    have hlast : (data.getD (m + 1 - 1) 0).toNat = plain.length := by
      rw [Nat.add_sub_cancel, hsize, BitVec.toNat_ofNat]
      omega
    rw [xxteaDecrypt, if_neg (by omega), hcipher, hkey', hpack, hkw]
    simp only
    rw [if_neg (by omega), if_pos (by omega), hback, map_some, toByteArray]
    simp only [true_and, if_true, hlast, hunpack]
    rw [if_neg (by omega), overwrite_zero (by rw [length_append, unpack_length]; omega)]

/-- `en_xxtea` writes the text of the whole cipher text, and `de_xxtea` takes it back to the plain
text. -/
theorem xxtea_round_trip (plain key : Bytes) (hplain : 0 ∉ plain) (hlen : 1 ≤ plain.length ∧
    plain.length ≤ 252) (hkey : 1 ≤ key.length ∧ key.length ≤ 32) :
    ∃ enstr n, xxteaEncrypt (replicate teaEnstrMax 0) plain plain.length key key.length =
    some (enstr, n) ∧
      enXxtea plain key = some (1, hexText (enstr.take n) ++ replicate (teaEnstrMax - 2 * n) 0) ∧
      ∀ outLen : Int, plain.length ≤ outLen → outLen < 2 ^ 31 →
        deXxtea (hexText (enstr.take n)) key outLen = some (1, plain) := by
  obtain ⟨cipher, hle, hfit, henc, hdec⟩ := xxtea_inverse hlen hkey
  generalize hzeros : replicate teaEnstrMax (0 : UInt8) = zeros
  have hroom : zeros.length = 512 := by
    rw [← hzeros]
    exact length_replicate
  refine ⟨cipher ++ zeros.drop cipher.length, cipher.length, henc zeros (by omega), ?_⟩
  rw [take_left]
  constructor
  · rw [enXxtea, hzeros, henc zeros (by omega)]
    simp only [bind_eq_bind, bind_some]
    rw [Nat.min_eq_left (show cipher.length ≤ teaEnstrMax / 2 from hfit),
      hexExpand_text _ _ (by rw [length_drop]; omega), drop_drop, ← hzeros, drop_replicate,
        Nat.two_mul]
  · intro outLen hout hint
    have hbin : hex2bin (hexText cipher) zeros = (cipher ++ zeros.drop cipher.length,
      cipher.length) := by
      have hloop := hexLoop_text cipher [] [] zeros (by omega)
      rw [append_nil, nil_append, nil_append, length_nil, Nat.zero_add] at hloop
      rw [hex2bin, if_neg (by rw [hexText_length]; omega), hloop]
      rfl
    have hstring :
      (cstring ((plain ++ (cipher ++ zeros.drop cipher.length).drop plain.length).set plain.length
        0)).bytes = plain := by
      obtain ⟨c, rest, hrest⟩ : ∃ c t, (cipher ++ zeros.drop cipher.length).drop plain.length =
        c :: t := by
        apply exists_cons_of_length_pos
        rw [length_drop, length_append, length_drop]
        omega
      rw [hrest, set_append_right _ _ (Nat.le_refl _), Nat.sub_self]
      exact cstring_append_zero hplain rest
    have hmod : outLen % 2 ^ 32 = outLen := Int.emod_eq_of_lt (by omega) (by omega)
    rw [deXxtea, if_neg (by rw [hexText_length, teaEnstrMax]; omega), hzeros, hbin]
    simp only [hdec, bind_eq_bind, bind_some, hstring, hmod]
    rw [if_neg (by omega), if_neg (by rw [teaEnstrMax]; omega), if_neg (by omega)]

/-- The text "ab" under the key "k", read back into three bytes. -/
theorem xxtea_round_trip_ab : ∃ enstr n, xxteaEncrypt (replicate teaEnstrMax 0) [97, 98] 2 [107] 1 =
    some (enstr, n) ∧
    enXxtea [97, 98] [107] = some (1, hexText (enstr.take n) ++ replicate (teaEnstrMax - 2 * n) 0) ∧
    deXxtea (hexText (enstr.take n)) [107] 3 = some (1, [97, 98]) := by
  obtain ⟨enstr, n, henc, hout, hdec⟩ := xxtea_round_trip [97, 98] [107] (by decide) (by decide)
    (by decide)
  exact ⟨enstr, n, henc, hout, hdec 3 (by decide) (by decide)⟩

end SwApi.Encrypt
