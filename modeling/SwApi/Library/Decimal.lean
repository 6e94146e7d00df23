import Mathlib.Algebra.Order.Ring.Int
import Mathlib.Data.List.TakeWhile

/-! Decimal numbers as text: what `%d` writes and what `atoi` reads. -/
namespace SwApi.Library
open List

def digit (n : Nat) : UInt8 := UInt8.ofNat (48 + n)

/-- The digits of `n`, the last one split off first; `n` rounds are enough. -/
def decimalLoop : Nat → Nat → List UInt8
  | 0, n => [digit (n % 10)]
  | fuel+1, n => if n < 10 then [digit n] else decimalLoop fuel (n / 10) ++ [digit (n % 10)]

def decimal (n : Nat) : List UInt8 := decimalLoop n n

def isDigit (c : UInt8) : Bool := 48 ≤ c && c ≤ 57

def isSpace (c : UInt8) : Bool := c = 32 || (9 ≤ c && c ≤ 13)

def horner (s : List UInt8) : Nat := s.foldl (fun n c => 10 * n + (c.toNat - 48)) 0

/-- `atoi`: blanks, a sign, digits; numbers that do not fit 32 bits are cut off
at the bounds. -/
def atoi (s : List UInt8) : Int :=
  match s.dropWhile isSpace with
  | 45 :: rest => max (-horner (rest.takeWhile isDigit)) (-2 ^ 31)
  | 43 :: rest => min (horner (rest.takeWhile isDigit)) (2 ^ 31 - 1)
  | rest => min (horner (rest.takeWhile isDigit)) (2 ^ 31 - 1)

theorem digit_toNat (h : n < 10) : (digit n).toNat = 48 + n := by
  rw [digit, UInt8.toNat_ofNat']
  omega

theorem isDigit_digit (h : n < 10) : isDigit (digit n) = true := by
  have hn := digit_toNat h
  simp only [isDigit, Bool.and_eq_true, decide_eq_true_eq, UInt8.le_iff_toNat_le, hn,
    UInt8.reduceToNat]
  omega

theorem horner_append (s : List UInt8) (c : UInt8) :
    horner (s ++ [c]) = 10 * horner s + (c.toNat - 48) := by
  simp [horner]

theorem isDigit_of_mem_decimalLoop (fuel n : Nat) : ∀ c ∈ decimalLoop fuel n, isDigit c = true := by
  induction fuel generalizing n with
  | zero => exact forall_mem_singleton.2 (isDigit_digit (Nat.mod_lt n (by decide)))
  | succ fuel ih =>
    rw [decimalLoop]
    split
    · rename_i hn
      exact forall_mem_singleton.2 (isDigit_digit hn)
    · exact forall_mem_append.2 ⟨ih _, forall_mem_singleton.2
        (isDigit_digit (Nat.mod_lt n (by decide)))⟩

theorem isDigit_of_mem_decimal (hc : c ∈ decimal n) : isDigit c = true :=
  isDigit_of_mem_decimalLoop n n c hc

/-- The digits are worth `n`, and those that a cut leaves are not worth more. -/
theorem horner_take_decimalLoop (fuel n k : Nat) (hfuel : n ≤ fuel) :
    horner ((decimalLoop fuel n).take k) ≤ n ∧ horner (decimalLoop fuel n) = n := by
  induction fuel generalizing n with
  | zero =>
    have hn : n = 0 := by omega
    subst hn
    cases k with
    | zero | succ k => simp [horner, decimalLoop, digit_toNat]
  | succ fuel ih =>
    rw [decimalLoop]
    split
    · rename_i hn
      cases k with
      | zero | succ k => simp [horner, digit_toNat hn]
    · rename_i hn
      obtain ⟨hle, hall⟩ := ih (n / 10) (by omega)
      have hwhole : horner (decimalLoop fuel (n / 10) ++ [digit (n % 10)]) = n := by
        rw [horner_append, hall, digit_toNat (Nat.mod_lt n (by decide))]
        omega
      by_cases hk : k ≤ (decimalLoop fuel (n / 10)).length
      · rw [take_append_of_le_length hk]
        exact ⟨by omega, hwhole⟩
      · have hcut : (decimalLoop fuel (n / 10) ++ [digit (n % 10)]).take k =
            decimalLoop fuel (n / 10) ++ [digit (n % 10)] := by
          apply take_of_length_le
          simp only [length_append, length_singleton]
          omega
        rw [hcut, hwhole]
        exact ⟨le_rfl, rfl⟩

theorem decimalLoop_length (hn : n < 10 ^ (k + 1)) : (decimalLoop fuel n).length ≤ k + 1 := by
  induction fuel generalizing n k with
  | zero => simp [decimalLoop]
  | succ fuel ih =>
    rw [decimalLoop]
    split
    · simp
    · rename_i hten
      cases k with
      | zero => omega
      | succ k =>
        have hdiv : n / 10 < 10 ^ (k + 1) := by
          rw [Nat.div_lt_iff_lt_mul (by decide), ← Nat.pow_succ]
          exact hn
        have := ih hdiv
        rw [length_append, length_singleton]
        omega

theorem decimal_length (hn : n < 10 ^ (k + 1)) : (decimal n).length ≤ k + 1 := decimalLoop_length hn

theorem decimal_ne_nil (n : Nat) : decimal n ≠ [] := by
  intro h
  cases n with
  | zero => cases h
  | succ n =>
    rw [decimal, decimalLoop] at h
    split at h
    · cases h
    · exact cons_ne_nil _ _ (append_eq_nil_iff.1 h).2

theorem horner_decimal (n : Nat) : horner (decimal n) = n :=
  (horner_take_decimalLoop n n 0 le_rfl).2

def EndsNumber (rest : List UInt8) : Prop := ∀ c ∈ rest.head?, isDigit c = false

theorem takeWhile_digits (hs : ∀ c ∈ s, isDigit c = true) (hrest : EndsNumber rest) :
    (s ++ rest).takeWhile isDigit = s := by
  rw [takeWhile_append_of_pos hs]
  cases rest with
  | nil => exact append_nil s
  | cons c rest => simp [hrest c rfl]

theorem isDigit_plain (h : isDigit c = true) : isSpace c = false ∧ c ≠ 45 ∧ c ≠ 43 := by
  simp only [isDigit, Bool.and_eq_true, decide_eq_true_eq, UInt8.le_iff_toNat_le,
    UInt8.reduceToNat] at h
  have hne {d : UInt8} (hd : d.toNat < 48) : c ≠ d := by
    rintro rfl
    omega
  have hgt : ¬c ≤ 13 := by
    rw [UInt8.le_iff_toNat_le]
    simp only [UInt8.reduceToNat]
    omega
  have hspace : c ≠ 32 := hne (by decide)
  exact ⟨by simp [isSpace, hspace, hgt], hne (by decide), hne (by decide)⟩

theorem dropWhile_digits (hc : isDigit c = true) (s : List UInt8) :
    (c :: s).dropWhile isSpace = c :: s := by
  rw [dropWhile_cons, (isDigit_plain hc).1]
  rfl

/-- `atoi` of digits and whatever ends them. -/
theorem atoi_number (hs : ∀ d ∈ c :: s, isDigit d = true)
    (hrest : EndsNumber rest) : atoi (c :: s ++ rest) = min (horner (c :: s) : Int)
    (2 ^ 31 - 1) := by
  have hc := hs c mem_cons_self
  obtain ⟨-, hminus, hplus⟩ := isDigit_plain hc
  rw [atoi, cons_append, dropWhile_digits hc]
  split
  · rename_i heq
    exact absurd (List.cons.inj heq).1 hminus
  · rename_i heq
    exact absurd (List.cons.inj heq).1 hplus
  · rw [← cons_append, takeWhile_digits hs hrest]

/-- `atoi` of digits at the end of a text or before a line feed. -/
theorem atoi_digits (hs : ∀ c ∈ s, isDigit c = true)
    (hrest : rest = [] ∨ rest = [10]) : atoi (s ++ rest) = min (horner s : Int) (2 ^ 31 - 1) := by
  cases s with
  | nil =>
    rcases hrest with rfl | rfl <;> rfl
  | cons c s =>
    apply atoi_number hs
    rcases hrest with rfl | rfl
    · simp [EndsNumber]
    · simp [EndsNumber, isDigit]

/-- The value of a digit; what is none counts as 36. -/
def digitValue (c : UInt8) : Nat :=
  if isDigit c then c.toNat - 48
  else if 97 ≤ c ∧ c ≤ 122 then c.toNat - 87
  else if 65 ≤ c ∧ c ≤ 90 then c.toNat - 55
  else 36

/-- The base that the digits announce, and the digits behind the announcement. -/
def announcedBase (s : List UInt8) : Nat × List UInt8 :=
  if s.head? = some 48 then
    if (s[1]? = some 120 ∨ s[1]? = some 88) ∧ digitValue (s.getD 2 0) < 16 then (16, s.drop 2)
    else (8, s)
  else (10, s)

/-- `strtol` with base 0: the number, cut off at the bounds of 32 bits, and the text behind it,
which is the whole text if it begins with no number. -/
def strtol (s : List UInt8) : Int × List UInt8 :=
  let t := s.dropWhile isSpace
  let negative := t.head? = some 45
  let t := if t.head? = some 45 ∨ t.head? = some 43 then t.tail else t
  let (base, t) := announcedBase t
  let digits := t.takeWhile (digitValue · < base)
  let n := digits.foldl (fun n c => base * n + digitValue c) 0
  if digits = [] then (0, s)
  else (if negative then max (-n) (-2 ^ 31) else min n (2 ^ 31 - 1), t.drop digits.length)

theorem digitValue_lt_ten : digitValue c < 10 ↔ isDigit c = true := by
  unfold digitValue
  split
  · rename_i h
    have hc := h
    simp only [isDigit, Bool.and_eq_true, decide_eq_true_eq, UInt8.le_iff_toNat_le,
      UInt8.reduceToNat] at hc
    exact iff_of_true (by omega) h
  · rename_i h
    refine iff_of_false ?_ h
    simp only [UInt8.le_iff_toNat_le, UInt8.reduceToNat]
    split
    · omega
    · split <;> omega

theorem decimal_ne_zero (hn : 0 < n) (hfuel : n ≤ fuel) : ∃ c s, decimalLoop fuel n = c :: s ∧
    c ≠ 48 := by
  induction fuel generalizing n with
  | zero => omega
  | succ fuel ih =>
    rw [decimalLoop]
    split
    · rename_i hlt
      refine ⟨digit n, [], rfl, ?_⟩
      intro h
      have hdigit := digit_toNat hlt
      rw [h] at hdigit
      simp only [UInt8.reduceToNat] at hdigit
      omega
    · obtain ⟨c, s, hrest, hc⟩ := ih (show 0 < n / 10 by omega) (by omega)
      exact ⟨c, s ++ [digit (n % 10)], by rw [hrest, cons_append], hc⟩

/-- `atoi` reads a decimal number back. -/
theorem atoi_decimal (hpos : 0 < n) (hn : n < 2 ^ 31) (hrest : EndsNumber rest) :
    atoi (decimal n ++ rest) = n := by
  obtain ⟨c, s, hs, -⟩ := decimal_ne_zero hpos le_rfl
  have hdecimal : decimal n = c :: s := hs
  have hdigits : ∀ d ∈ c :: s, isDigit d = true :=
    fun d hd => isDigit_of_mem_decimal (hdecimal ▸ hd)
  rw [hdecimal, atoi_number hdigits hrest, ← hdecimal, horner_decimal]
  omega

theorem foldl_digits {s : List UInt8} (hs : ∀ c ∈ s, isDigit c = true) (n : Nat) :
    s.foldl (fun n c => 10 * n + digitValue c) n = s.foldl
    (fun n c => 10 * n + (c.toNat - 48)) n := by
  induction s generalizing n with
  | nil => rfl
  | cons c s ih =>
    have hc : digitValue c = c.toNat - 48 := if_pos (hs c mem_cons_self)
    rw [foldl_cons, foldl_cons, hc, ih (forall_mem_cons.1 hs).2]

/-- `strtol` reads a decimal number back. -/
theorem strtol_decimal {n : Nat} (hpos : 0 < n) (hn : n < 2 ^ 31) (hrest : EndsNumber rest) :
    strtol (decimal n ++ rest) = ((n : Int), rest) := by
  obtain ⟨c, s, hs, hc⟩ := decimal_ne_zero hpos le_rfl
  have hdecimal : decimal n = c :: s := hs
  have hdigits : ∀ d ∈ decimal n, isDigit d = true := fun d hd => isDigit_of_mem_decimal hd
  have hfirst : isDigit c = true := hdigits c (by rw [hdecimal]; exact mem_cons_self)
  obtain ⟨-, hminus, hplus⟩ := isDigit_plain hfirst
  have hdrop : (decimal n ++ rest).dropWhile isSpace = decimal n ++ rest := by
    rw [hdecimal]
    exact dropWhile_digits hfirst _
  have hhead : (decimal n ++ rest).head? = some c := by
    rw [hdecimal]
    rfl
  have hsign : ¬((decimal n ++ rest).head? = some 45 ∨ (decimal n ++ rest).head? = some 43) := by
    simp [hhead, hminus, hplus]
  have hbase : announcedBase (decimal n ++ rest) = (10, decimal n ++ rest) := by
    rw [announcedBase, if_neg (by simpa [hhead] using hc)]
  have hspan : (decimal n ++ rest).takeWhile (digitValue · < 10) = decimal n := by
    simp only [digitValue_lt_ten, Bool.decide_eq_true]
    exact takeWhile_digits hdigits hrest
  have hvalue : (decimal n).foldl (fun n c => 10 * n + digitValue c) 0 = n := by
    rw [foldl_digits hdigits]
    exact horner_decimal n
  have hnegative : ¬(decimal n ++ rest).head? = some 45 := fun h => hsign (.inl h)
  rw [strtol]
  simp only [hdrop, if_neg hsign, hbase, hspan, hvalue, if_neg hnegative]
  rw [if_neg (by rw [hdecimal]; simp), drop_left, min_eq_left (by omega)]

end SwApi.Library
