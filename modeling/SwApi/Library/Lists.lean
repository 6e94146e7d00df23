import Mathlib.Algebra.Order.Ring.Int
import Mathlib.Data.List.Forall2
import Mathlib.Data.List.GetD

/-! Replacing one element of a list, alone and in two lists related pointwise, and lists
joined by a separator. -/
namespace SwApi.Library
open List

variable {as : List α} {i : Nat}

theorem set_eq_self (h : as[i]? = some a) : as.set i a = as := by
  obtain ⟨hi, rfl⟩ := List.getElem?_eq_some_iff.1 h
  exact set_getElem_self hi

theorem getElem?_set_of_some {i j : Nat} (h : as[i]? = some a) (b : α) :
    (as.set i b)[j]? = if i = j then some b else as[j]? := by
  obtain ⟨hi, -⟩ := List.getElem?_eq_some_iff.1 h
  rw [getElem?_set, if_pos hi]

theorem getD_set (h : p < as.length) (b : α) (i : Nat) (d : α) :
    (as.set p b).getD i d = if i = p then b else as.getD i d := by
  rw [getD_eq_getElem?_getD, getD_eq_getElem?_getD, getElem?_set, if_pos h]
  simp only [eq_comm]
  split <;> rfl

theorem ext_getD {as bs : List α} (hlength : as.length = bs.length) (d : α)
    (h : ∀ i, as.getD i d = bs.getD i d) : as = bs := by
  apply ext_getElem hlength
  intro i hi hi'
  have hget := h i
  rwa [getD_eq_getElem _ _ hi, getD_eq_getElem _ _ hi'] at hget

theorem head_dropWhile {p : α → Bool} (h : a ∈ (as.dropWhile p).head?) : p a = false := by
  have hhead := head?_dropWhile_not p as
  rwa [h] at hhead

theorem modify_eq_set (h : as[i]? = some a) (f : α → α) :
    as.modify i f = as.set i (f a) := by
  rw [modify_eq_set_getElem?, h]
  rfl

theorem sum_map_set (h : as[i]? = some a) (b : α) (f : α → Nat) :
    ((as.set i b).map f).sum + f a = (as.map f).sum + f b := by
  induction as generalizing i with
  | nil => simp at h
  | cons c rest ih =>
    cases i with
    | zero =>
      cases h
      simp only [set_cons_zero, map_cons, sum_cons]
      omega
    | succ i =>
      have hrest := ih (i := i) (by simpa using h)
      simp only [set_cons_succ, map_cons, sum_cons]
      omega

/-- An element that `keep` drops may be replaced by another one. -/
theorem filter_set_of_neg
    (hold : ∀ a, as[i]? = some a → keep a = false) (hnew : keep b = false) :
    (as.set i b).filter keep = as.filter keep := by
  induction as generalizing i with
  | nil => rfl
  | cons c rest ih =>
    cases i with
    | zero =>
      have hc : keep c = false := hold c rfl
      simp [hc, hnew]
    | succ i =>
      have hrest := ih (i := i) fun a ha => hold a (by simpa using ha)
      simp [filter_cons, hrest]

theorem filter_eraseIdx_of_neg (hold : ∀ a, as[i]? = some a → keep a = false) :
    (as.eraseIdx i).filter keep = as.filter keep := by
  induction as generalizing i with
  | nil => rfl
  | cons c rest ih =>
    cases i with
    | zero =>
      have hc : keep c = false := hold c rfl
      simp [hc]
    | succ i =>
      have hrest := ih (i := i) fun a ha => hold a (by simpa using ha)
      simp [filter_cons, hrest]

theorem filter_getElem? (h : ∀ k ≤ i, ∀ a, as[k]? = some a → keep a = true) (hi : i < as.length) :
    (as.filter keep)[i]? = as[i]? := by
  induction as generalizing i with
  | nil => rfl
  | cons a as ih =>
    have ha : keep a = true := h 0 (Nat.zero_le _) a rfl
    rw [filter_cons_of_pos ha]
    cases i with
    | zero => rfl
    | succ i =>
      apply ih
      · intro k hk b hb
        exact h (k + 1) (by omega) b (by simpa using hb)
      · simpa using hi

theorem filter_insert_of_neg (k : Nat) (as : List α) (hnew : keep b = false) :
    (as.take k ++ b :: as.drop k).filter keep = as.filter keep := by
  rw [filter_append, filter_cons_of_neg (by simp [hnew]), ← filter_append,
    take_append_drop]

theorem forall₂_set (h : Forall₂ R as bs)
    (hab : R a b) (i : Nat) : Forall₂ R (as.set i a) (bs.set i b) := by
  induction h generalizing i with
  | nil => simp
  | cons hhead _ ih =>
    cases i with
    | zero => exact .cons hab ‹_›
    | succ i => exact .cons hhead (ih i)

theorem forall₂_getElem? {R : α → β → Prop} (h : Forall₂ R as bs)
    (ha : as[i]? = some a) : ∃ b, bs[i]? = some b ∧ R a b := by
  induction h generalizing i with
  | nil => simp at ha
  | cons hhead _ ih =>
    cases i with
    | zero =>
      cases ha
      exact ⟨_, rfl, hhead⟩
    | succ i => exact ih ha

theorem intercalate_middle (sep : α) (xs : List (List α)) (y : List α) (ys : List (List α)) :
    intercalate [sep] (xs ++ y :: ys) = xs.flatMap
    (· ++ [sep]) ++ (y ++ ys.flatMap (sep :: ·)) := by
  induction xs with
  | nil =>
    rw [flatMap_nil, nil_append, nil_append]
    induction ys generalizing y with
    | nil => simp [intercalate]
    | cons z zs ih =>
      rw [intercalate_cons_cons, ih z, flatMap_cons, append_assoc]
      rfl
  | cons x xs ih =>
    obtain ⟨z, zs, hz⟩ := exists_cons_of_ne_nil (show xs ++ y :: ys ≠ [] by simp)
    rw [cons_append, hz, intercalate_cons_cons, ← hz, ih, flatMap_cons, append_assoc,
      append_assoc, append_assoc]

end SwApi.Library
