import Mathlib.Data.List.Basic

/-! Arrays as functions of the index, and the lists that lie in their first
slots. Moving slots inserts into such a list or removes from it. -/
namespace SwApi.Library
open List Function

/-- `memmove(f + dst, f + src, n)`, counted in slots. -/
def memmove (f : Nat → α) (dst src n : Nat) : Nat → α :=
  fun k => if dst ≤ k ∧ k < dst + n then f (src + (k - dst)) else f k

@[simp] theorem memmove_zero (f : Nat → α) (dst src : Nat) : memmove f dst src 0 = f := by
  funext k
  exact if_neg (by omega)

def cells (f : Nat → α) (n : Nat) : List α := (range n).map f

@[simp] theorem cells_length (f : Nat → α) (n : Nat) : (cells f n).length = n := by
  simp [cells]

@[simp] theorem cells_getElem (f : Nat → α) (n k : Nat) (hk : k < (cells f n).length) :
    (cells f n)[k] = f k := by
  simp [cells]

theorem cells_getElem? (f : Nat → α) (hk : k < n) : (cells f n)[k]? = some (f k) := by
  rw [getElem?_eq_getElem (by simpa using hk), cells_getElem]

theorem cells_succ (f : Nat → α) (n : Nat) : cells f (n + 1) = cells f n ++ [f n] := by
  simp [cells, range_succ]

theorem mem_cells : x ∈ cells f n ↔ ∃ k, k < n ∧ f k = x := by
  simp [cells]

theorem cells_congr (h : ∀ k, k < n → f k = g k) : cells f n = cells g n := by
  apply map_congr_left
  intro k hk
  exact h k (mem_range.1 hk)

theorem cells_update (f : Nat → α) (n i : Nat) (x : α) :
    cells (update f i x) n = (cells f n).set i x := by
  apply ext_getElem (by simp)
  intro k hk _
  rw [cells_getElem, getElem_set, update_apply, cells_getElem]
  simp [eq_comm]

theorem cells_insert (f : Nat → α) (hp : p ≤ n) (x : α) :
    cells (update (memmove f (p + 1) p (n - p)) p x) (n + 1) =
      (cells f n).take p ++ x :: (cells f n).drop p := by
  apply ext_getElem (by simp; omega)
  intro k hk _
  rw [cells_length] at hk
  rw [cells_getElem, update_apply]
  rcases Nat.lt_trichotomy k p with hlt | heq | hgt
  · rw [getElem_append_left (by simp; omega), getElem_take, cells_getElem,
      if_neg (by omega), memmove, if_neg (by omega)]
  · rw [getElem_append_right (by simp; omega), if_pos heq]
    simp [heq, Nat.min_eq_left hp]
  · have hlen : (List.take p (cells f n)).length = p := by simp [hp]
    rw [getElem_append_right (by omega), if_neg (by omega), memmove, if_pos (by omega),
      getElem_cons]
    simp only [hlen]
    rw [dif_neg (by omega), getElem_drop, cells_getElem]
    congr 1

theorem cells_remove (f : Nat → α) (hi : i < n) :
    cells (memmove f i (i + 1) (n - i - 1)) (n - 1) = (cells f n).eraseIdx i := by
  apply ext_getElem (by simp [length_eraseIdx, hi])
  intro k hk _
  rw [cells_length] at hk
  rw [cells_getElem, getElem_eraseIdx, memmove]
  by_cases hki : k < i
  · rw [if_neg (by omega), dif_pos hki, cells_getElem]
  · rw [if_pos (by omega), dif_neg hki, cells_getElem]
    congr 1
    omega

def memset (f : Nat → α) (dst n : Nat) (x : α) : Nat → α :=
  fun k => if dst ≤ k ∧ k < dst + n then x else f k

/-- A pass over `left` slots from `i` on: what is kept moves down to slot `j`, and the slot it
comes from is cleared, as is the slot of what is not kept. -/
def compact (keep : α → Bool) (zero : α) : Nat → Nat → Nat → (Nat → α) → Nat × (Nat → α)
  | 0, _, j, f => (j, f)
  | left+1, i, j, f =>
      if keep (f i) then
        compact keep zero left (i + 1) (j + 1)
          (if j ≠ i then update (memmove f j i 1) i zero else f)
      else compact keep zero left (i + 1) j (update f i zero)

theorem cells_shift (f : Nat → α) (i left : Nat) : cells (fun k => f (i + k)) (left + 1) =
    f i :: cells (fun k => f (i + 1 + k)) left := by
  simp [cells, range_succ_eq_map, Function.comp_def, Nat.add_assoc, Nat.add_comm 1]

/-- Behind `j` slots kept so far, the pass leaves what it keeps in its order. -/
theorem cells_compact (keep : α → Bool) (zero : α) (left i j : Nat) (f : Nat → α) (hij : j ≤ i) :
    cells (compact keep zero left i j f).2 (compact keep zero left i j f).1 =
      cells f j ++ (cells (fun k => f (i + k)) left).filter keep := by
  induction left generalizing i j f with
  | zero => simp [compact, cells]
  | succ left ih =>
    rw [compact, cells_shift]
    split
    · rename_i hkeep
      generalize hnext : (if j ≠ i then update (memmove f j i 1) i zero else f) = next
      have hslot : ∀ k, k ≠ i → next k = if k = j then f i else f k := by
        intro k hk
        subst hnext
        grind [memmove, update_apply]
      have hj : next j = f i := by
        by_cases hji : j = i
        · rw [← hnext, if_neg (by omega), hji]
        · rw [hslot j hji, if_pos rfl]
      have hbefore : cells next j = cells f j :=
        cells_congr fun k hk => by rw [hslot k (by omega), if_neg (by omega)]
      have hbehind : cells (fun k => next (i + 1 + k)) left = cells (fun k => f (i + 1 + k)) left :=
        cells_congr fun k hk => by rw [hslot (i + 1 + k) (by omega), if_neg (by omega)]
      rw [ih (i + 1) (j + 1) next (by omega), cells_succ, hj, hbefore, hbehind,
        filter_cons_of_pos hkeep, append_assoc]
      rfl
    · rename_i hkeep
      have hbefore : cells (update f i zero) j = cells f j :=
        cells_congr fun k hk => update_of_ne (by omega) _ _
      have hbehind : cells (fun k => update f i zero (i + 1 + k)) left =
          cells (fun k => f (i + 1 + k)) left :=
        cells_congr fun k hk => update_of_ne (by omega) _ _
      rw [ih (i + 1) j _ (by omega), hbefore, hbehind, filter_cons_of_neg hkeep]

end SwApi.Library
