import Mathlib.Algebra.Order.Ring.Int

/-! Binary search in a sorted array, and the search for the place of a new
element. Only the comparisons of the sought key with the elements are seen:
`c k` is positive when the key lies behind element `k`, negative when it lies
before it; `none` leaves the program. -/
namespace SwApi.Library.SortedSearch

inductive Outcome where
  | found (mid : Nat)
  /-- The element looked at last and the result of its comparison. -/
  | missing (mid : Nat) (order : Int)

/-- The loop `while ( big <= end )` of a binary search. -/
def loop (c : Nat → Option Int) : Nat → Int → Int → Nat → Int → Option Outcome
  | 0, _, _, _, _ => none
  | fuel+1, big, last, mid, i =>
      if big ≤ last then
        let mid := ((big + last) / 2).toNat
        match c mid with
        | none => none
        | some i =>
            if 0 < i then loop c fuel (mid + 1) last mid i
            else if i < 0 then loop c fuel big (mid - 1) mid i
            else some (.found mid)
      else some (.missing mid i)

/-- The search among the first `n` elements; each round shortens the range. -/
def bsearch (c : Nat → Option Int) (n : Nat) : Option Outcome := loop c (n + 1) 0 (n - 1) 0 0

/-- Upwards from `mid`, at most `left` elements, to the first that is not smaller. -/
def scanUp (c : Nat → Option Int) : Nat → Nat → Option Nat
  | 0, mid => some mid
  | left+1, mid =>
      match c mid with
      | none => none
      | some i => if 0 < i then scanUp c left (mid + 1) else some mid

/-- Downwards from `mid` to behind the first that is not greater. -/
def scanDown (c : Nat → Option Int) : Nat → Option Nat
  | 0 => (c 0).map fun i => if i < 0 then 0 else 1
  | mid+1 =>
      match c (mid + 1) with
      | none => none
      | some i => if i < 0 then scanDown c mid else some (mid + 2)

/-- The comparisons with a strictly increasing array: positive, at most one
zero, then negative. -/
def Descends (s : Nat → Int) (n : Nat) : Prop := ∀ i j, i < j → j < n → 0 ≤ s j → 0 < s i

structure IsPlace (s : Nat → Int) (n p : Nat) : Prop where
  le : p ≤ n
  before : ∀ k, k < p → 0 < s k
  behind : ∀ k, p ≤ k → k < n → s k < 0

section
variable {c : Nat → Option Int} {s : Nat → Int} {n : Nat} (hc : ∀ k, k < n → c k = some (s k))
    (hs : Descends s n)
include hc hs

/-- The range between `big` and `last` keeps every element that compares equal. -/
theorem loop_spec (fuel : Nat)
    (big last : Int) (mid : Nat) (i : Int) (hbounds : 0 ≤ big ∧ big ≤ last + 1 ∧ last < n)
    (hfuel : last + 1 - big < fuel) (hbefore : ∀ k : Nat, k < n → (k : Int) < big → 0 < s k)
    (hbehind : ∀ k : Nat, k < n → last < k → s k < 0) (hlast : big ≤ last ∨ mid < n ∧ i = s mid) :
    (∃ m, loop c fuel big last mid i = some (.found m) ∧ m < n ∧ s m = 0) ∨
    (∃ m, loop c fuel big last mid i = some (.missing m (s m)) ∧ m < n ∧ ∀ k, k < n → s k ≠ 0) := by
  induction fuel generalizing big last mid i with
  | zero => omega
  | succ fuel ih =>
    by_cases hloop : big ≤ last
    · generalize hmid : ((big + last) / 2).toNat = m
      have hm : big ≤ m ∧ (m : Int) ≤ last := by omega
      have hmn : m < n := by omega
      have hstep : loop c (fuel + 1) big last mid i =
          if 0 < s m then loop c fuel (m + 1) last m (s m)
          else if s m < 0 then loop c fuel big (m - 1) m (s m)
          else some (.found m) := by
        simp only [loop, if_pos hloop, hmid, hc m hmn]
      rw [hstep]
      rcases lt_trichotomy (s m) 0 with hneg | hzero | hpos
      · rw [if_neg (by omega), if_pos hneg]
        apply ih big (m - 1) m (s m) (by omega) (by omega) hbefore _ (.inr ⟨hmn, rfl⟩)
        intro k hk hmk
        by_cases hkm : k = m
        · rwa [hkm]
        · by_contra hnn
          have := hs m k (by omega) hk (by omega)
          omega
      · rw [if_neg (by omega), if_neg (by omega)]
        exact .inl ⟨m, rfl, hmn, hzero⟩
      · rw [if_pos hpos]
        apply ih (m + 1) last m (s m) (by omega) (by omega) _ hbehind (.inr ⟨hmn, rfl⟩)
        intro k hk hkm
        by_cases hkm' : k = m
        · rwa [hkm']
        · exact hs k m (by omega) hmn hpos.le
    · right
      obtain ⟨hmn, hi⟩ := hlast.resolve_left hloop
      refine ⟨mid, by rw [loop, if_neg hloop, hi], hmn, ?_⟩
      intro k hk hzero
      by_cases hbig : (k : Int) < big
      · have := hbefore k hk hbig
        omega
      · have := hbehind k hk (by omega)
        omega

theorem bsearch_spec (hn : 0 < n) :
    (∃ m, bsearch c n = some (.found m) ∧ m < n ∧ s m = 0) ∨
    (∃ m, bsearch c n = some (.missing m (s m)) ∧ m < n ∧ ∀ k, k < n → s k ≠ 0) := by
  apply loop_spec hc hs <;> omega

theorem scanUp_spec
    (hne : ∀ k, k < n → s k ≠ 0) (left mid : Nat) (hleft : mid + left = n)
    (hbefore : ∀ k, k < mid → 0 < s k) : ∃ p, scanUp c left mid = some p ∧ IsPlace s n p := by
  induction left generalizing mid with
  | zero => exact ⟨mid, rfl, by omega, hbefore, by omega⟩
  | succ left ih =>
    rw [scanUp, hc mid (by omega)]
    by_cases hpos : 0 < s mid
    · simp only [if_pos hpos]
      apply ih (mid + 1) (by omega)
      intro k hk
      by_cases hkm : k = mid
      · rwa [hkm]
      · exact hbefore k (by omega)
    · simp only [if_neg hpos]
      refine ⟨mid, rfl, by omega, hbefore, ?_⟩
      intro k hmk hk
      by_contra hnn
      by_cases hkm : k = mid
      · have := hne mid (by omega)
        rw [hkm] at hnn
        omega
      · exact hpos (hs mid k (by omega) hk (by omega))

theorem scanDown_spec
    (hne : ∀ k, k < n → s k ≠ 0) (mid : Nat) (hmid : mid < n)
    (hbehind : ∀ k, mid < k → k < n → s k < 0) : ∃ p, scanDown c mid = some p ∧ IsPlace s n p := by
  induction mid with
  | zero =>
    rw [scanDown, hc 0 hmid]
    by_cases hneg : s 0 < 0
    · refine ⟨0, by simp [hneg], by omega, by omega, ?_⟩
      intro k _ hk
      by_cases hk0 : k = 0
      · rwa [hk0]
      · exact hbehind k (by omega) hk
    · refine ⟨1, by simp [hneg], by omega, ?_, fun k hk => hbehind k (by omega)⟩
      intro k hk
      have hk0 : k = 0 := by omega
      have := hne 0 hmid
      rw [hk0]
      omega
  | succ mid ih =>
    rw [scanDown, hc (mid + 1) hmid]
    by_cases hneg : s (mid + 1) < 0
    · simp only [if_pos hneg]
      apply ih (by omega)
      intro k hmk hk
      by_cases hkm : k = mid + 1
      · rwa [hkm]
      · exact hbehind k (by omega) hk
    · simp only [if_neg hneg]
      have hpos : 0 < s (mid + 1) := by
        have := hne (mid + 1) hmid
        omega
      refine ⟨mid + 2, rfl, by omega, ?_, fun k hk => hbehind k (by omega)⟩
      intro k hk
      by_cases hkm : k = mid + 1
      · rwa [hkm]
      · exact hs k (mid + 1) (by omega) hmid hpos.le

end

end SwApi.Library.SortedSearch
