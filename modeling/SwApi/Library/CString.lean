import Mathlib.Data.List.Lex
import Mathlib.Data.List.TakeWhile

/-! C strings as the bytes before their terminating NUL. The type excludes an
embedded NUL, so `strlen`, `strcmp` and `strdup` are the list operations. -/
namespace SwApi.Library
open List

structure CString where
  bytes : List UInt8
  nulFree : 0 ∉ bytes
deriving DecidableEq

namespace CString

@[ext] theorem ext {a b : CString} (h : a.bytes = b.bytes) : a = b := by
  cases a; cases b; cases h; rfl

def strlen (s : CString) : Nat := s.bytes.length

def take (s : CString) (n : Nat) : CString :=
  ⟨s.bytes.take n, fun h => s.nulFree (mem_of_mem_take h)⟩

def empty : CString := ⟨[], by simp⟩

def tolower (c : UInt8) : UInt8 := if 65 ≤ c ∧ c ≤ 90 then c + 32 else c

/-- The first difference of the lower-case bytes; the end of a string counts as NUL. -/
def casecmp : List UInt8 → List UInt8 → Int
  | [], [] => 0
  | [], b :: _ => -(tolower b).toNat
  | a :: _, [] => (tolower a).toNat
  | a :: as, b :: bs =>
      if tolower a = tolower b then casecmp as bs else (tolower a).toNat - (tolower b).toNat

def strcasecmp (a b : CString) : Int := casecmp a.bytes b.bytes

/-- What the comparison sees of a string; the order is the lexicographic one. -/
def fold (s : CString) : List Nat := s.bytes.map fun c => (tolower c).toNat

theorem tolower_pos (hc : c ≠ 0) : 0 < (tolower c).toNat := by
  have hpos : 0 < c.toNat := by
    rw [Nat.pos_iff_ne_zero]
    intro h
    exact hc (UInt8.toNat_inj.1 h)
  unfold tolower
  split
  · rename_i h
    have hle : c.toNat ≤ 90 := h.2
    rw [UInt8.toNat_add]
    simp only [UInt8.reduceToNat]
    omega
  · exact hpos

theorem casecmp_sign (as bs : List UInt8) (ha : 0 ∉ as) (hb : 0 ∉ bs) : (0 < casecmp as bs ↔
      bs.map (fun c => (tolower c).toNat) < as.map fun c => (tolower c).toNat) ∧
      (casecmp as bs = 0 ↔
      as.map (fun c => (tolower c).toNat) = bs.map fun c => (tolower c).toNat) := by
  induction as, bs using casecmp.induct with
  | case1 => simp [casecmp]
  | case2 b bs =>
    have := tolower_pos (c := b) (by rintro rfl; simp at hb)
    simp [casecmp]
    omega
  | case3 a as =>
    have := tolower_pos (c := a) (by rintro rfl; simp at ha)
    simp [casecmp]
    omega
  | case4 a as b bs heq ih =>
    have := ih (by simp_all) (by simp_all)
    simp [casecmp, heq, this]
  | case5 a as b bs hne =>
    have hne' : (tolower a).toNat ≠ (tolower b).toNat := fun h => hne (UInt8.toNat_inj.1 h)
    simp only [casecmp, if_neg hne, map_cons, cons_lt_cons_iff, List.cons.injEq]
    constructor
    · constructor
      · intro h
        left
        omega
      · rintro (h | h)
        · omega
        · exact absurd h.1.symm hne'
    · constructor
      · intro h
        omega
      · intro h
        exact absurd h.1 hne'

theorem strcasecmp_pos_iff : 0 < strcasecmp a b ↔ b.fold < a.fold :=
  (casecmp_sign a.bytes b.bytes a.nulFree b.nulFree).1

theorem strcasecmp_eq_zero_iff : strcasecmp a b = 0 ↔ a.fold = b.fold :=
  (casecmp_sign a.bytes b.bytes a.nulFree b.nulFree).2

theorem strcasecmp_neg_iff : strcasecmp a b < 0 ↔ a.fold < b.fold := by
  have hpos := strcasecmp_pos_iff (a := a) (b := b)
  have hzero := strcasecmp_eq_zero_iff (a := a) (b := b)
  rcases lt_trichotomy a.fold b.fold with h | h | h
  · have h1 := mt hpos.1 (not_lt_of_gt h)
    have h2 := mt hzero.1 h.ne
    exact ⟨fun _ => h, fun _ => by omega⟩
  · have h2 := hzero.2 h
    exact ⟨fun h3 => by omega, fun h3 => absurd h h3.ne⟩
  · have h1 := hpos.2 h
    exact ⟨fun h3 => by omega, fun h3 => absurd h (not_lt_of_gt h3)⟩

end CString
def cstring (s : List UInt8) : CString where
  bytes := s.takeWhile (· ≠ 0)
  nulFree := fun h => by simpa using mem_takeWhile_imp h

theorem cstring_bytes (h : 0 ∉ s) : (cstring s).bytes = s := by
  apply takeWhile_eq_self_iff.2
  intro c hc
  exact decide_eq_true fun heq => h (heq ▸ hc)

theorem cstring_append_zero (h : 0 ∉ s) (t : List UInt8) : (cstring (s ++ 0 :: t)).bytes = s := by
  have hall : ∀ c ∈ s, decide (c ≠ 0) = true := fun c hc => decide_eq_true fun heq => h (heq ▸ hc)
  show (s ++ 0 :: t).takeWhile (· ≠ 0) = s
  rw [takeWhile_append_of_pos hall]
  simp

theorem cstring_eq {s : List UInt8} (h : s = a.bytes) : cstring s = a := by
  apply CString.ext
  rw [h]
  exact cstring_bytes a.nulFree

end SwApi.Library
