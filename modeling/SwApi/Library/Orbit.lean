import Mathlib.Data.Finset.Card

/-! Stepping along a partial function until it has no value. -/
namespace SwApi.Library

variable {α β : Type} {next : α → Option α}

def after (next : α → Option α) : Nat → α → Option α
  | 0, a => some a
  | k+1, a => (next a).bind (after next k)

theorem after_add (next : α → Option α) (j k : Nat) (a : α) :
    after next (j + k) a = (after next j a).bind (after next k) := by
  induction j generalizing a with
  | zero => rw [Nat.zero_add]; rfl
  | succ j ih =>
    rw [Nat.succ_add, after, after]
    cases next a with
    | none => rfl
    | some b => exact ih b

theorem after_succ (next : α → Option α) (k : Nat) (a : α) :
    after next (k + 1) a = (after next k a).bind next := by
  rw [after_add]
  congr 1
  funext b
  rw [after]
  cases next b with
  | none | some c => rfl

theorem after_map (h : ∀ a, (next a).map f = next' (f a)) (k : Nat) (a : α) :
    (after next k a).map f = after next' k (f a) := by
  induction k generalizing a with
  | zero => rfl
  | succ k ih =>
    rw [after, after, ← h]
    cases next a with
    | none => rfl
    | some b => exact ih b

def Ends (next : α → Option α) (a b : α) : Prop := ∃ k, after next k a = some b ∧ next b = none

theorem Ends.stop (h : next a = none) : Ends next a a := ⟨0, rfl, h⟩

theorem Ends.step (hstep : next a = some a') (h : Ends next a' b) : Ends next a b := by
  obtain ⟨k, hk, hb⟩ := h
  exact ⟨k + 1, by rw [after, hstep]; exact hk, hb⟩

theorem after_none_of_lt (hk : after next k a = some b) (hb : next b = none) (hj : k < j) :
    after next j a = none := by
  obtain ⟨d, rfl⟩ := Nat.exists_eq_add_of_lt hj
  rw [Nat.add_assoc, after_add, hk, Option.bind_some, Nat.add_comm d 1, after_add, after, hb]
  rfl

theorem Ends.unique (h : Ends next a b) (h' : Ends next a b') : b = b' := by
  obtain ⟨j, hj, hb⟩ := h
  obtain ⟨k, hk, hb'⟩ := h'
  rcases Nat.lt_trichotomy j k with hlt | rfl | hlt
  · rw [after_none_of_lt hj hb hlt] at hk
    cases hk
  · exact Option.some.inj (hj.symm.trans hk)
  · rw [after_none_of_lt hk hb' hlt] at hj
    cases hj

/-- Where no place from `n` on has a next one, stepping ends exactly when it meets no place
twice. -/
theorem ends_iff_no_return {next : Nat → Option Nat} {n a : Nat} (hbound : ∀ p, n ≤ p →
    next p = none) :
    (∃ b, Ends next a b) ↔ ∀ j k p, after next j a = some p → after next k a = some p → j = k := by
  constructor
  · rintro ⟨b, m, hm, hb⟩
    -- a place met at j and again at k would be met again at m - k steps behind j, before the end
    have hearlier : ∀ j k p, j < k → after next j a = some p → after next k a = some p → False := by
      intro j k p hlt hj hk
      have hle : k ≤ m := by
        by_contra hnot
        rw [after_none_of_lt hm hb (Nat.lt_of_not_le hnot)] at hk
        cases hk
      have hagain : after next (j + (m - k)) a = some b := by
        rw [after_add, hj, ← hk, ← after_add, Nat.add_sub_cancel' hle, hm]
      rw [after_none_of_lt hagain hb (by omega)] at hm
      cases hm
    intro j k p hj hk
    rcases Nat.lt_trichotomy j k with hlt | heq | hlt
    · exact (hearlier j k p hlt hj hk).elim
    · exact heq
    · exact (hearlier k j p hlt hk hj).elim
  · intro hreturn
    by_contra hends
    have hall : ∀ k, ∃ p, p < n ∧ after next k a = some p := by
      intro k
      have hsome : ∃ p, after next k a = some p := by
        induction k with
        | zero => exact ⟨a, rfl⟩
        | succ k ih =>
          obtain ⟨p, hp⟩ := ih
          cases hnext : next p with
          | none => exact (hends ⟨p, k, hp, hnext⟩).elim
          | some q => exact ⟨q, by rw [after_succ, hp, Option.bind_some, hnext]⟩
      obtain ⟨p, hp⟩ := hsome
      refine ⟨p, ?_, hp⟩
      by_contra hnot
      exact hends ⟨p, k, hp, hbound p (Nat.le_of_not_lt hnot)⟩
    choose place hlt hplace using hall
    have hcard : (Finset.range n).card < (Finset.range (n + 1)).card := by
      rw [Finset.card_range, Finset.card_range]
      exact Nat.lt_succ_self n
    have hmaps : ∀ k ∈ Finset.range (n + 1), place k ∈ Finset.range n :=
      fun k _ => Finset.mem_range.2 (hlt k)
    obtain ⟨j, -, k, -, hne, heq⟩ := Finset.exists_ne_map_eq_of_card_lt_of_maps_to hcard hmaps
    exact hne (hreturn j k (place j) (hplace j) (heq ▸ hplace k))

end SwApi.Library
