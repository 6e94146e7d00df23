import Mathlib.Tactic.Common

/-! Blocks of memory as lists. A store keeps the size of a block and changes only the places it
covers; a block that grows keeps what it holds. -/
namespace SwApi.Library
open List

variable {α : Type}

/-- Stores `data` from the index `i` on; places behind the block are left out. -/
def overwrite (block : List α) (i : Nat) (data : List α) : List α :=
  (block.take i ++ data ++ block.drop (i + data.length)).take block.length

@[simp] theorem overwrite_length (block data : List α) (i : Nat) :
    (overwrite block i data).length = block.length := by
  simp only [overwrite, length_take, length_append, length_drop]
  omega

theorem overwrite_eq (h : i + data.length ≤ block.length) :
    overwrite block i data = block.take i ++ data ++ block.drop (i + data.length) := by
  apply take_of_length_le
  simp only [length_append, length_take, length_drop]
  omega

theorem take_overwrite (h : i + data.length ≤ block.length) :
    (overwrite block i data).take (i + data.length) = block.take i ++ data := by
  rw [overwrite_eq h]
  apply take_left'
  simp only [length_append, length_take]
  omega

theorem take_overwrite_zero (h : data.length ≤ block.length) :
    (overwrite block 0 data).take data.length = data := by
  have hstored := take_overwrite (i := 0) (by rwa [Nat.zero_add] : 0 + data.length ≤ block.length)
  rwa [Nat.zero_add, take_zero, nil_append] at hstored

theorem take_overwrite_of_le (hn : n ≤ i) (hi : i ≤ block.length) :
    (overwrite block i data).take n = block.take n := by
  rw [overwrite, take_take, Nat.min_eq_left (by omega), append_assoc,
    take_append_of_le_length (by rw [length_take]; omega), take_take, Nat.min_eq_left hn]

structure StoredAt (block : List α) (limit i : Nat) (data : List α) : Prop where
  content : (block.drop i).take data.length = data
  before : i + data.length ≤ limit

theorem StoredAt.mono (h : StoredAt block limit i data) (hle : limit ≤ limit') :
    StoredAt block limit' i data := ⟨h.content, Nat.le_trans h.before hle⟩

theorem StoredAt.overwrite (h : StoredAt block limit i data) (hj : limit ≤ j)
    (hlen : j ≤ block.length) : StoredAt (overwrite block j other) limit i data := by
  have hbefore := h.before
  refine ⟨?_, hbefore⟩
  rw [take_drop, take_overwrite_of_le (by omega) hlen, ← take_drop, h.content]

theorem storedAt_overwrite (h : i + (data ++ rest).length ≤ block.length) :
    StoredAt (Library.overwrite block i (data ++ rest)) (i + data.length) i data := by
  refine ⟨?_, Nat.le_refl _⟩
  have hlen : (block.take i).length = i := by
    rw [length_take]
    rw [length_append] at h
    omega
  rw [overwrite_eq h, append_assoc, append_assoc, drop_left' hlen]
  exact take_left' rfl

/-- `realloc`: the new places hold `fresh`, as far as it goes. -/
def resize (block fresh : List α) (a : α) (n : Nat) : List α :=
  (block ++ fresh ++ replicate n a).take n

@[simp] theorem resize_length (block fresh : List α) (a : α) (n : Nat) :
    (resize block fresh a n).length = n := by
  simp only [resize, length_take, length_append, length_replicate]
  omega

theorem take_resize (hk : k ≤ block.length) (hn : k ≤ n) (fresh : List α) (a : α) :
    (resize block fresh a n).take k = block.take k := by
  rw [resize, take_take, Nat.min_eq_left hn, append_assoc, take_append_of_le_length hk]

end SwApi.Library
