import SwApi.Library.Base64
import SwApi.Library.Block
import SwApi.Url.Text

/-! `sw_swqrcode_analysis` of `swqrcode_config.c`, with allocations that succeed. A block is the
list of its bytes; `none` stands for an access outside of a block, a NULL that is used, and a key
without bytes. -/
namespace SwApi.Qrcode
open Library List Option

def infoMax : Nat := 512

def store (p : Bytes) (i : Nat) (x : UInt8) : Option Bytes := if i < p.length then some (p.set i x)
    else none

/-- `Base64Val`; `g_szV64` are the usual digits. -/
def base64Val (c : UInt8) : UInt8 :=
  match base64Digits.findIdx? (· == c) with
  | some i => .ofNat i
  | none => if c = 61 then 64 else 255

/-- The loops of `DecodeBase64T` from a byte of the text on: the block, NULL after a byte that is no
digit, and `nIndex`. -/
def decodeLoop : Bytes → Nat → Bytes → Nat → Option (Option Bytes × Nat)
  | [], _, p, n => some (some p, n)
  | c :: text, loop, p, n =>
      let val := base64Val c
      if c = 61 then some (some p, n)
      else if 64 ≤ val then some (none, 0)
      else
        match loop with
        | 0 => do
            let p ← store p n (val <<< 2)
            decodeLoop text 1 p n
        | 1 => do
            let p ← store p n ((← p[n]?) ||| val >>> 4)
            let p ← store p (n + 1) ((val &&& 0x0F) <<< 4)
            decodeLoop text 2 p (n + 1)
        | 2 => do
            let p ← store p n ((← p[n]?) ||| val >>> 2)
            let p ← store p (n + 1) ((val &&& 3) <<< 6)
            decodeLoop text 3 p (n + 1)
        | _ => do
            let p ← store p n ((← p[n]?) ||| val)
            decodeLoop text 0 p (n + 1)

def decodeBase64T (text : Bytes) : Option (Option Bytes × Nat) :=
  decodeLoop text 0 (replicate (text.length * 6 / 8 + 1) 0) 0

/-- `key[i]/10` and `key[i]%10`, cut to a byte; `char` is signed. -/
def keyDigits (c : UInt8) : Bytes :=
  let c : Int := if c < 128 then c.toNat else c.toNat - 256
  [.ofInt (c.tdiv 10), .ofInt (c.tmod 10)]

def keyArr (key : Bytes) : Bytes := key.flatMap keyDigits

def reversedKeyArr (key : Bytes) : Bytes := key.reverse.flatMap keyDigits

def keyAt (key : Bytes) (i : Nat) : Option UInt8 :=
  if i % 2 = 0 then (keyArr key)[i % (key.length * 4) / 2]?
  else (reversedKeyArr key)[(i % (key.length * 4) - 1) / 2]?

def encryptWIFIInfo (key text : Bytes) : Nat → Bytes → Option Bytes
  | 0, result => some result
  | i+1, result => do
      let result ← encryptWIFIInfo key text i result
      store result i ((← text[i]?) ^^^ (← keyAt key i))

def readString : Bytes → Option Bytes
  | [] => none
  | c :: p => if c = 0 then some [] else (readString p).map (c :: ·)

def strstr (s : Bytes) : Bytes → Option (Option Bytes)
  | [] => none
  | c :: p => if s <+: c :: p then some (some (c :: p)) else if c = 0 then some none else strstr s p

/-- What the record points to: the block of the ssid and the one of password and security, with
their places. -/
structure SwQrcodeInfo where
  ssid : Bytes
  S2 : Bytes
  passwd : Nat
  sec : Nat

/-- The bytes are those that the block of `S2` held; an inner `none` is the result NULL. Without
`P:` the place of the password is none, which the last log reads. -/
def swSwqrcodeAnalysis (fresh : Nat → UInt8) (qrcode key : Bytes) : Option (Option SwQrcodeInfo) :=
  match Url.strchr 124 qrcode with
  | none => some none
  | some p =>
      let k1 := qrcode.take (qrcode.length - p.length)
      let k2 := p.tail
      if infoMax ≤ k1.length ∨ infoMax ≤ k2.length then some none
      else do
        let (ssid, _) ← decodeBase64T k1
        let (e2, e2Len) ← decodeBase64T k2
        let s2 ← encryptWIFIInfo key (e2.getD []) e2Len ((range e2Len).map fresh)
        let passwd := (← strstr [80, 58] s2).map fun p => s2.length - p.length + 2
        match ← strstr [59] s2 with
        | none => some none
        | some r => do
            let s2 := s2.set (s2.length - r.length) 0
            match ← strstr [67, 58] r.tail with
            | none => some none
            | some q => do
                let info : SwQrcodeInfo := ⟨← ssid, s2, ← passwd, s2.length - q.length + 2⟩
                let _ ← readString info.ssid
                let _ ← readString (s2.drop info.passwd)
                let _ ← readString (s2.drop info.sec)
                some (some info)

theorem base64Val_digit (h : n.toNat < 64) : base64Val (base64Digit n) = n := by
  have hall : ∀ k < 64, base64Val (base64Digits.getD k 0) = .ofNat k := by decide
  rw [base64Digit, hall _ h, UInt8.ofNat_toNat]

theorem digit_accepted (h : n.toNat < 64) : base64Digit n ≠ 61 ∧ ¬64 ≤ n := by
  refine ⟨fun heq => ?_, ?_⟩
  · have hmem := base64Digit_mem h
    rw [heq] at hmem
    exact absurd hmem (by decide)
  · rw [UInt8.le_iff_toNat_le]
    exact Nat.not_le.2 h

section
variable (pre p text : Bytes) (a b c x y : UInt8)

theorem store_append : store (pre ++ x :: p) pre.length y = some (pre ++ y :: p) := by
  simp [store]

theorem store_append_next : store (pre ++ a :: x :: p) (pre.length + 1) y =
    some (pre ++ a :: y :: p) := by
  simp [store]

theorem decodeLoop_first :
    decodeLoop (base64Digit (sextet₁ a) :: base64Digit (sextet₂ a b) :: text) 0
    (pre ++ x :: y :: p) pre.length =
      decodeLoop text 2 (pre ++ a :: (sextet₂ a b &&& 0x0F) <<< 4 :: p) (pre.length + 1) := by
  simp [decodeLoop, base64Val_digit, sextet₁_lt, sextet₂_lt, digit_accepted (sextet₁_lt a),
    digit_accepted (sextet₂_lt a b), store_append, store_append_next, byte_of_sextets₁]

theorem decodeLoop_third :
    decodeLoop (base64Digit (sextet₃ b c) :: text) 2 (pre ++ (sextet₂ a b &&& 0x0F) <<< 4 :: x :: p)
    pre.length =
      decodeLoop text 3 (pre ++ b :: (sextet₃ b c &&& 3) <<< 6 :: p) (pre.length + 1) := by
  simp [decodeLoop, base64Val_digit, sextet₃_lt, digit_accepted (sextet₃_lt b c), store_append,
    store_append_next, byte_of_sextets₂]

theorem decodeLoop_fourth :
    decodeLoop (base64Digit (sextet₄ c) :: text) 3
    (pre ++ (sextet₃ b c &&& 3) <<< 6 :: p) pre.length =
      decodeLoop text 0 (pre ++ c :: p) (pre.length + 1) := by
  simp [decodeLoop, base64Val_digit, sextet₄_lt, digit_accepted (sextet₄_lt c), store_append,
    byte_of_sextets₃]

end

theorem decodeLoop_base64 (s pre : Bytes) (m : Nat) :
    decodeLoop (base64 s) 0 (pre ++ replicate (s.length + m + 1) 0) pre.length =
      some (some (pre ++ s ++ replicate (m + 1) 0), pre.length + s.length) := by
  fun_induction base64 s generalizing pre with
  | case1 => simp [decodeLoop]
  | case2 a =>
    rw [show [a].length + m + 1 = m + 1 + 1 by simp; omega, replicate_succ, replicate_succ,
      decodeLoop_first, (sextets_end a 0).1]
    simp [decodeLoop]
  | case3 a b =>
    rw [show [a, b].length + m + 1 = m + 1 + 1 + 1 by simp; omega, replicate_succ, replicate_succ,
      replicate_succ, decodeLoop_first]
    have hthird := decodeLoop_third (pre ++ [a]) (replicate m 0) [61] a b 0 0
    rw [(sextets_end a b).2] at hthird
    simp only [length_append, length_singleton, append_assoc, cons_append, nil_append] at hthird
    rw [hthird]
    simp [decodeLoop]
  | case4 a b c s ih =>
    rw [show (a :: b :: c :: s).length + m + 1 = s.length + m + 1 + 1 + 1 + 1 by simp; omega,
      replicate_succ, replicate_succ, replicate_succ, decodeLoop_first]
    have hthird := decodeLoop_third (pre ++ [a]) (replicate (s.length + m + 1) 0)
      (base64Digit (sextet₄ c) :: base64 s) a b c 0
    have hfourth := decodeLoop_fourth (pre ++ [a, b]) (replicate (s.length + m + 1) 0)
      (base64 s) b c
    have hrest := ih (pre ++ [a, b, c])
    simp at hthird hfourth hrest
    simp [hthird, hfourth, hrest]
    omega

theorem decodeBase64T_base64 (s : Bytes) : ∃ m, (base64 s).length * 6 / 8 + 1 = s.length + m + 1 ∧
    decodeBase64T (base64 s) = some (some (s ++ replicate (m + 1) 0), s.length) := by
  have hsize : (base64 s).length * 6 / 8 + 1 = s.length + ((base64 s).length * 6 / 8 - s.length) +
    1 := by
    rw [base64_length]
    omega
  refine ⟨(base64 s).length * 6 / 8 - s.length, hsize, ?_⟩
  rw [decodeBase64T, hsize]
  simpa using decodeLoop_base64 s [] ((base64 s).length * 6 / 8 - s.length)

theorem keyAt_some (hkey : key ≠ []) (i : Nat) : ∃ d, keyAt key i = some d := by
  have hlength (s : Bytes) : (s.flatMap keyDigits).length = s.length * 2 := by simp [keyDigits]
  have hpos := length_pos_of_ne_nil hkey
  have hmod := Nat.mod_lt i (show 0 < key.length * 4 by omega)
  rw [keyAt]
  split
  · exact ⟨_, getElem?_eq_getElem (by rw [keyArr, hlength]; omega)⟩
  · exact ⟨_, getElem?_eq_getElem (by rw [reversedKeyArr, hlength, length_reverse]; omega)⟩

theorem encryptWIFIInfo_eq {d : Nat → UInt8} (hd : ∀ i, keyAt key i = some (d i))
    (htext : n ≤ text.length) (hresult : n ≤ result.length) : encryptWIFIInfo key text n result =
      some ((range n).map (fun i => text.getD i 0 ^^^ d i) ++ result.drop n) := by
  induction n with
  | zero => rfl
  | succ n ih =>
    obtain ⟨x, rest, hrest⟩ : ∃ x t, result.drop n = x :: t :=
      exists_cons_of_length_pos (by rw [length_drop]; omega)
    have hnext : result.drop (n + 1) = rest := by rw [← drop_drop, hrest]; rfl
    have hstore := store_append ((range n).map fun i => text.getD i 0 ^^^ d i) rest x
      (text.getD n 0 ^^^ d n)
    rw [length_map, length_range] at hstore
    rw [encryptWIFIInfo, ih (by omega) (by omega), hrest, hnext, getElem?_eq_getElem (by omega), hd]
    simp only [bind_eq_bind, bind_some]
    rw [← getD_eq_getElem _ 0, hstore, range_succ]
    simp

def encrypted (key text : Bytes) : Option Bytes :=
  encryptWIFIInfo key text text.length (replicate text.length 0)

theorem encrypted_back (hkey : key ≠ []) (text : Bytes) :
    ∃ cipher, encrypted key text = some cipher ∧
    ∀ rest fresh : Bytes, fresh.length = cipher.length →
      encryptWIFIInfo key (cipher ++ rest) cipher.length fresh = some text := by
  choose d hd using keyAt_some hkey
  have hsize : text.length ≤ (replicate text.length (0 : UInt8)).length := by simp
  have henc := encryptWIFIInfo_eq hd (Nat.le_refl text.length) hsize
  rw [drop_eq_nil_of_le (by simp), append_nil] at henc
  refine ⟨_, henc, fun rest fresh hfresh => ?_⟩
  rw [encryptWIFIInfo_eq hd (by simp) (by rw [hfresh]), drop_eq_nil_of_le (by rw [hfresh]),
    append_nil]
  congr 1
  apply ext_getElem (by simp)
  intro i hi hi'
  have hget : ((range text.length).map fun i => text.getD i 0 ^^^ d i)[i]? =
    some (text[i] ^^^ d i) := by
    simp [hi']
  have hxor : text[i] ^^^ d i ^^^ d i = text[i] := by
    rw [UInt8.xor_assoc, UInt8.xor_self, UInt8.xor_zero]
  simp [getElem?_append_left, hi', hxor]

theorem readString_append {s : Bytes} (hs : 0 ∉ s) :
    readString (s ++ t) = (readString t).map (s ++ ·) := by
  induction s with
  | nil => simp
  | cons c s ih =>
    simp only [mem_cons, not_or] at hs
    rw [cons_append, readString, if_neg (Ne.symm hs.1), ih hs.2, Option.map_map]
    rfl

theorem strstr_semicolon {s : Bytes} (hs : 0 ∉ s) (hs' : 59 ∉ s) (t : Bytes) :
    strstr [59] (s ++ 59 :: t) = some (some (59 :: t)) := by
  induction s with
  | nil => simp [strstr]
  | cons c s ih =>
    simp only [mem_cons, not_or] at hs hs'
    rw [cons_append, strstr, if_neg (by simpa using hs'.1), if_neg (Ne.symm hs.1), ih hs.2 hs'.2]

def wifiInfo (password security tail : Bytes) : Bytes :=
  80 :: 58 :: (password ++ 59 :: 67 :: 58 :: (security ++ tail))

theorem readString_eq_iff {s : Bytes} (hs : 0 ∉ s) (t : Bytes) : readString (s ++ t) = some s ↔
    t.head? = some 0 := by
  rw [readString_append hs]
  cases t with
  | nil => simp [readString]
  | cons c t =>
    rw [readString]
    split <;> simp [*]

theorem not_mem_base64 {c : UInt8} (h : c ∉ 61 :: base64Digits) (s : Bytes) : c ∉ base64 s := by
  intro hc
  rcases mem_base64 hc with hc | rfl
  · exact h (mem_cons_of_mem _ hc)
  · exact h mem_cons_self

/-- The code of an ssid and of the encrypted information gives both back exactly when the
information goes on with a 0 behind the security. -/
theorem analysis_recovers_iff (fresh : Nat → UInt8) (ssid password security tail key : Bytes)
    (hssid : 0 ∉ ssid)
    (hpassword : 0 ∉ password ∧ 59 ∉ password) (hsecurity : 0 ∉ security) (hkey : key ≠ [])
    (hfit : (base64 ssid).length < infoMax) :
    ∃ cipher, encrypted key (wifiInfo password security tail) = some cipher ∧
      ((base64 cipher).length < infoMax →
        ((∃ info, swSwqrcodeAnalysis fresh (base64 ssid ++ 124 :: base64 cipher) key =
        some (some info) ∧
          readString info.ssid = some ssid ∧ readString (info.S2.drop info.passwd) = some password ∧
          readString (info.S2.drop info.sec) = some security) ↔ tail.head? = some 0)) := by
  obtain ⟨cipher, henc, hback⟩ := encrypted_back hkey (wifiInfo password security tail)
  refine ⟨cipher, henc, fun hfit' => ?_⟩
  obtain ⟨m₁, -, hdec₁⟩ := decodeBase64T_base64 ssid
  obtain ⟨m₂, -, hdec₂⟩ := decodeBase64T_base64 cipher
  have hbar : Url.strchr 124 (base64 ssid ++ 124 :: base64 cipher) =
    some (124 :: base64 cipher) := by
    rw [Url.strchr_append (not_mem_base64 (by decide) ssid), Url.strchr_cons]
  have hk1 : (base64 ssid ++ 124 :: base64 cipher).take
    ((base64 ssid ++ 124 :: base64 cipher).length -
      (124 :: base64 cipher).length) = base64 ssid := by
    simp
  have hplain := hback (replicate (m₂ + 1) 0) ((range cipher.length).map fresh) (by simp)
  rw [swSwqrcodeAnalysis, hbar]
  simp only [hk1, tail_cons]
  rw [if_neg (by omega), hdec₁]
  simp only [bind_eq_bind, bind_some, hdec₂, getD_some, hplain]
  have hP : strstr [80, 58] (wifiInfo password security tail) =
    some (some (wifiInfo password security tail)) := by
    simp [strstr, wifiInfo]
  have hsemi : strstr [59] (wifiInfo password security tail) =
    some (some (59 :: 67 :: 58 :: (security ++ tail))) :=
    strstr_semicolon (s := 80 :: 58 :: password) (by simp [hpassword.1]) (by simp [hpassword.2]) _
  have hC : strstr [67, 58] (67 :: 58 :: (security ++ tail)) =
    some (some (67 :: 58 :: (security ++ tail))) := by
    simp [strstr]
  obtain ⟨s2, hs2⟩ : ∃ s2, s2 = 80 :: 58 :: (password ++ 0 :: 67 :: 58 :: (security ++ tail)) :=
    ⟨_, rfl⟩
  have hset : (wifiInfo password security tail).set ((wifiInfo password security tail).length -
      (59 :: 67 :: 58 :: (security ++ tail)).length) 0 = s2 := by
    rw [hs2, wifiInfo, ← cons_append, ← cons_append, length_append, Nat.add_sub_cancel,
      set_append_right _ _ (Nat.le_refl _), Nat.sub_self]
    rfl
  have hpasswd : s2.drop 2 = password ++ 0 :: 67 :: 58 :: (security ++ tail) := by rw [hs2]; rfl
  have hsec : s2.drop (s2.length - (67 :: 58 :: (security ++ tail)).length + 2) =
    security ++ tail := by
    have hplace : s2.length - (67 :: 58 :: (security ++ tail)).length + 2 =
      password.length + 3 + 2 := by
      simp [hs2]
      omega
    rw [hplace, hs2, drop_succ_cons, drop_succ_cons, drop_length_add_append]
    rfl
  have hread₁ := (readString_eq_iff hssid (replicate (m₁ + 1) 0)).2 rfl
  have hread₂ := (readString_eq_iff hpassword.1 (0 :: 67 :: 58 :: (security ++ tail))).2 rfl
  simp only [hP, hsemi, tail_cons, hC, bind_some, map_some, hset, Nat.sub_self, Nat.zero_add,
    hpasswd, hsec, hread₁, hread₂]
  rw [← readString_eq_iff hsecurity tail]
  constructor
  · rintro ⟨info, hinfo, -, -, hread⟩
    obtain ⟨s, hs, hinfo⟩ := bind_eq_some_iff.1 hinfo
    cases hinfo
    rwa [hsec] at hread
  · intro hread
    rw [hread, bind_some]
    exact ⟨_, rfl, hread₁, by rw [hpasswd, hread₂], by rw [hsec, hread]⟩

/-- The network "a" with the password "p" and the security "W", which a 0 follows. -/
theorem analysis_recovers_iff_terminated : ∃ info, swSwqrcodeAnalysis (fun _ => 255)
        [89, 81, 61, 61, 124, 86, 68, 53, 53, 77, 107, 99, 43, 88, 103, 107, 61]
        [49] = some (some info) ∧
      readString info.ssid = some [97] ∧ readString (info.S2.drop info.passwd) = some [112] ∧
      readString (info.S2.drop info.sec) = some [87] := by
  obtain ⟨cipher, hcipher, hiff⟩ := analysis_recovers_iff (fun _ => 255) [97] [112] [87] [0] [49]
    (by decide) (by decide) (by decide) (by decide) (by decide)
  cases hcipher
  exact (hiff (by decide)).2 rfl

/-- Without the 0 the security is read on behind its block. -/
theorem security_is_not_terminated :
    encrypted [49] (wifiInfo [112] [87] []) = some [84, 62, 121, 50, 71, 62, 94] ∧
    base64 [97] ++ 124 :: base64 [84, 62, 121, 50, 71, 62, 94] =
      [89, 81, 61, 61, 124, 86, 68, 53, 53, 77, 107, 99, 43, 88, 103, 61, 61] ∧
    swSwqrcodeAnalysis (fun _ => 255)
      [89, 81, 61, 61, 124, 86, 68, 53, 53, 77, 107, 99, 43, 88, 103, 61, 61] [49] = none := by
  decide

end SwApi.Qrcode
