import Mathlib.Tactic.Common

/-! A stream that arrives in pieces: a receive brings some of what it asks for, or nothing. -/
namespace SwApi.Library
open List

/-- What is still to come, and how the next receives cut it: at most `k+1` elements for `some k`,
nothing for `none`. Behind the last cut a receive brings all that it asks for. -/
structure Line (α : Type) where
  bytes : List α
  cuts : List (Option Nat)

namespace Line

def recv (l : Line α) (n : Nat) : List α × Line α :=
  match l.cuts with
  | [] => (l.bytes.take n, ⟨l.bytes.drop n, []⟩)
  | none :: cuts => ([], ⟨l.bytes, cuts⟩)
  | some k :: cuts => (l.bytes.take (min n (k+1)), ⟨l.bytes.drop (min n (k+1)), cuts⟩)

def Flows (l : Line α) : Prop := ∀ c ∈ l.cuts, c ≠ none

variable {l : Line α}

theorem recv_append (l : Line α) (n : Nat) : (l.recv n).1 ++ (l.recv n).2.bytes = l.bytes := by
  unfold recv
  split
  · exact take_append_drop _ _
  · rfl
  · exact take_append_drop _ _

theorem recv_length (l : Line α) (n : Nat) : (l.recv n).1.length ≤ n := by
  unfold recv
  split
  · exact length_take_le _ _
  · exact Nat.zero_le _
  · exact Nat.le_trans (length_take_le _ _) (Nat.min_le_left _ _)

theorem recv_ne_nil (hcut : l.cuts.head? ≠ some none) (hn : 0 < n) (hbytes : l.bytes ≠ []) :
    (l.recv n).1 ≠ [] := by
  have hpos := length_pos_iff.2 hbytes
  unfold recv
  split
  · rw [← length_pos_iff, length_take]
    omega
  · rename_i h
    rw [h] at hcut
    exact absurd rfl hcut
  · rw [← length_pos_iff, length_take]
    omega

theorem recv_cuts (l : Line α) (n : Nat) : (l.recv n).2.cuts = l.cuts.tail := by
  unfold recv
  split
  all_goals
    rename_i h
    rw [h]
    rfl

theorem Flows.head (h : l.Flows) : l.cuts.head? ≠ some none :=
  fun hc => h none (mem_of_head? hc) rfl

theorem Flows.recv (h : l.Flows) (n : Nat) : (l.recv n).2.Flows := by
  intro c hc
  rw [recv_cuts] at hc
  exact h c (mem_of_mem_tail hc)

end Line

end SwApi.Library
