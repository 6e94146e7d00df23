import Mathlib.Tactic.Common

/-! Slices of a buffer, and slices that lie one behind the other. -/
namespace SwApi.Library
open List

/-- Some elements of a buffer, given by their place and number; no place is the null pointer. -/
structure Slice where
  p : Option Nat
  len : Nat
deriving DecidableEq

namespace Slice

def null : Slice := ⟨none, 0⟩

def data (s : Slice) (buf : List α) : List α := s.p.elim [] fun i => (buf.drop i).take s.len

def Covers (s : Slice) (k : Nat) : Prop := ∃ i ∈ s.p, i ≤ k ∧ k < i + s.len

@[simp] theorem data_null (buf : List α) : null.data buf = [] := rfl

theorem data_some (buf : List α) (i len : Nat) :
    (Slice.mk (some i) len).data buf = (buf.drop i).take len := rfl

theorem data_append (pre s rest : List α) : (Slice.mk (some pre.length) s.length).data
    (pre ++ (s ++ rest)) = s := by
  simp [data_some]

theorem data_length {s : Slice} (hp : s.p = some i) (h : i + s.len ≤ buf.length) :
    (s.data buf).length = s.len := by
  obtain ⟨p, len⟩ := s
  cases hp
  rw [data_some, length_take, length_drop]
  dsimp only at h ⊢
  omega

end Slice

/-- Null, or one behind the other from `lo` to `hi`. -/
inductive Tiles : Nat → List Slice → Nat → Prop where
  | nil {lo hi} : lo ≤ hi → Tiles lo [] hi
  | null {lo slices hi} : Tiles lo slices hi → Tiles lo (Slice.null :: slices) hi
  | cons {lo i len slices hi} : lo ≤ i → Tiles (i + len) slices hi →
    Tiles lo (⟨some i, len⟩ :: slices) hi

namespace Tiles

theorem le (h : Tiles lo slices hi) : lo ≤ hi := by
  induction h with
  | nil h => exact h
  | null _ ih => exact ih
  | cons h _ ih => omega

theorem mono (h : Tiles lo slices hi) (hlo : lo' ≤ lo) : Tiles lo' slices hi := by
  induction h with
  | nil h => exact .nil (Nat.le_trans hlo h)
  | null _ ih => exact .null (ih hlo)
  | cons h hrest _ => exact .cons (Nat.le_trans hlo h) hrest

theorem append (h : Tiles lo slices mid) (h' : Tiles mid slices' hi) :
    Tiles lo (slices ++ slices') hi := by
  induction h with
  | nil hle => exact h'.mono hle
  | null _ ih => exact .null (ih h')
  | cons hle _ ih => exact .cons hle (ih h')

theorem within (h : Tiles lo slices hi) (hs : s ∈ slices) :
    s = Slice.null ∨ ∃ i, s.p = some i ∧ lo ≤ i ∧ i + s.len ≤ hi := by
  induction h with
  | nil _ => cases hs
  | null _ ih =>
    rcases mem_cons.1 hs with rfl | hs
    · exact .inl rfl
    · exact ih hs
  | cons hle hrest ih =>
    rcases mem_cons.1 hs with rfl | hs
    · exact .inr ⟨_, rfl, hle, hrest.le⟩
    · obtain hnull | ⟨i, hi, hlow, hhigh⟩ := ih hs
      · exact .inl hnull
      · exact .inr ⟨i, hi, by omega, hhigh⟩

theorem apart (h : Tiles lo slices hi) : slices.Pairwise fun a b => ∀ k,
    ¬(a.Covers k ∧ b.Covers k) := by
  induction h with
  | nil _ => exact .nil
  | null _ ih =>
    refine .cons (fun b _ k hk => ?_) ih
    obtain ⟨⟨i, hi, -⟩, -⟩ := hk
    cases hi
  | cons _ hrest ih =>
    refine .cons (fun b hb k hk => ?_) ih
    obtain ⟨⟨i, hi, -, hlt⟩, j, hj, hle, -⟩ := hk
    cases hi
    obtain rfl | ⟨j', hj', hbehind, -⟩ := hrest.within hb
    · cases hj
    · cases hj.symm.trans hj'
      exact absurd (Nat.lt_of_lt_of_le hlt (Nat.le_trans hbehind hle)) (Nat.lt_irrefl _)

end Tiles

end SwApi.Library
