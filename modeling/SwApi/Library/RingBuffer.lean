import Mathlib.Data.List.Basic
import SwApi.Library.CyclicProbe

/-! Rings of records of one width in a flat memory. The two ends are offsets,
an end that reaches the last record starts over at offset 0, and equal ends mean
that the ring is empty, so a ring of `n` records holds at most `n - 1`. -/
namespace SwApi.Library.RingBuffer
open CyclicProbe List

abbrev Record (α : Type) (w : Nat) := {cells : List α // cells.length = w}

def load (mem : List α) (w offset : Nat) : Option (Record α w) :=
  if h : offset + w ≤ mem.length then
    some ⟨(mem.drop offset).take w, by simp only [length_take, length_drop]; omega⟩
  else none

def store (mem : List α) (offset : Nat) (r : Record α w) : Option (List α) :=
  if offset + w ≤ mem.length then some (mem.take offset ++ r.1 ++ mem.drop (offset + w)) else none

/-- The record behind `offset`; the first one behind the last. -/
def next (total w offset : Nat) : Nat :=
  if (offset : Int) < (total : Int) - w then offset + w else 0

def count (total w read write : Nat) : Nat :=
  if read < write then (write - read) / w
  else if write = read then 0
  else (write + total - read) / w

/-- The records between the two ends, oldest first. -/
def contents (mem : List α) (w read write : Nat) : List (Record α w) :=
  (range (count mem.length w read write)).filterMap fun k =>
    load mem w ((read + w * k) % mem.length)

theorem store_eq_some {r : Record α w} (h : store mem offset r = some mem') :
    offset + w ≤ mem.length ∧ mem' = mem.take offset ++ r.1 ++ mem.drop (offset + w) := by
  unfold store at h
  split at h
  · exact ⟨‹_›, (Option.some.inj h).symm⟩
  · cases h

theorem store_length {r : Record α w} (h : store mem offset r = some mem') :
    mem'.length = mem.length := by
  have hs := store_eq_some h
  have hr := r.2
  simp only [hs.2, length_append, length_take, length_drop]
  omega

theorem store_getElem? {r : Record α w} (h : store mem offset r = some mem') (i : Nat) :
    mem'[i]? = if offset ≤ i ∧ i < offset + w then r.1[i - offset]? else mem[i]? := by
  have hs := store_eq_some h
  have hr := r.2
  rw [hs.2]
  grind

theorem load_eq_some_iff : load mem w offset = some r ↔
    offset + w ≤ mem.length ∧ ∀ i, i < w → mem[offset + i]? = r.1[i]? := by
  have hr := r.2
  constructor
  · intro h
    unfold load at h
    split at h
    · rename_i hle
      cases h
      apply And.intro hle
      intro i hi
      simp [getElem?_take_of_lt hi]
    · cases h
  · intro h
    rw [load, dif_pos h.1]
    apply congrArg some
    apply Subtype.ext
    apply ext_getElem?
    intro i
    by_cases hi : i < w
    · rw [getElem?_take_of_lt hi, getElem?_drop]
      exact h.2 i hi
    · rw [getElem?_eq_none (by simp; omega), getElem?_eq_none (by omega)]

theorem load_store_same {r : Record α w} (h : store mem offset r = some mem') :
    load mem' w offset = some r := by
  apply load_eq_some_iff.2
  have hs := store_eq_some h
  apply And.intro
  · rw [store_length h]
    exact hs.1
  · intro i hi
    rw [store_getElem? h, if_pos (by omega), Nat.add_sub_cancel_left]

theorem load_store_other {r s : Record α w} (h : store mem offset r = some mem')
    (hoff : offset' + w ≤ offset ∨ offset + w ≤ offset') (hl : load mem w offset' = some s) :
    load mem' w offset' = some s := by
  have hls := load_eq_some_iff.1 hl
  apply load_eq_some_iff.2
  apply And.intro
  · rw [store_length h]
    exact hls.1
  · intro i hi
    rw [store_getElem? h, if_neg (by omega)]
    exact hls.2 i hi

theorem record_fits {w i n : Nat} (hi : i < n) : w * i + w ≤ w * n := by
  rw [← Nat.mul_succ]
  exact Nat.mul_le_mul_left w hi

theorem records_apart {w i j : Nat} (h : i ≠ j) : w * i + w ≤ w * j ∨ w * j + w ≤ w * i := by
  rcases Nat.lt_or_gt_of_ne h with hlt | hgt
  · exact .inl (record_fits hlt)
  · exact .inr (record_fits hgt)

theorem next_mul (hw : 0 < w) (hi : i < n) : next (w * n) w (w * i) = w * ((i + 1) % n) := by
  unfold next
  by_cases hlast : i + 1 < n
  · have hlt : w * i + w < w * n := by
      rw [← Nat.mul_succ]
      exact Nat.mul_lt_mul_of_pos_left hlast hw
    rw [if_pos (by omega), Nat.mod_eq_of_lt hlast, Nat.mul_succ]
  · have hend : i + 1 = n := by omega
    have htot : w * i + w = w * n := by rw [← Nat.mul_succ, Nat.succ_eq_add_one, hend]
    rw [if_neg (by omega), hend, Nat.mod_self, Nat.mul_zero]

theorem next_pos (hw : 0 < w) (hr : r < n) (d : Nat) :
    next (w * n) w (w * pos n r d) = w * pos n r (d + 1) := by
  rw [next_mul hw (pos_lt (by omega) r d), pos_succ]

theorem count_pos (hw : 0 < w) (hr : r < n) (hd : d < n) :
    count (w * n) w (w * r) (w * pos n r d) = d := by
  unfold count pos
  by_cases hround : r + d < n
  · rw [Nat.mod_eq_of_lt hround, Nat.mul_add, Nat.add_sub_cancel_left, Nat.mul_div_cancel_left _ hw]
    split
    · rfl
    · have hzero : w * d = 0 := by omega
      have hd0 : d = 0 := (Nat.mul_eq_zero.1 hzero).resolve_left (by omega)
      rw [if_pos (by omega), hd0]
  · have hmod : (r + d) % n = r + d - n := by
      rw [Nat.mod_eq_sub_mod (by omega), Nat.mod_eq_of_lt (by omega)]
    have hlt : w * (r + d - n) < w * r := Nat.mul_lt_mul_of_pos_left (by omega) hw
    rw [hmod, if_neg (by omega), if_neg (by omega), ← Nat.mul_add, ← Nat.mul_sub,
      Nat.mul_div_cancel_left _ hw]
    omega

/-- The records `items` lie one behind the other from record `r` on. -/
structure Lays (mem : List α) (n r : Nat) (items : List (Record α w)) : Prop where
  size : mem.length = w * n
  start : r < n
  room : items.length ≤ n
  at_pos : ∀ k < items.length, load mem w (w * pos n r k) = items[k]?

theorem Lays.push {items : List (Record α w)} (h : Lays mem n r items) (hroom : items.length < n)
    (e : Record α w) : ∃ mem', store mem (w * pos n r items.length) e = some mem' ∧
      Lays mem' n r (items ++ [e]) := by
  have hpos : pos n r items.length < n := pos_lt (by omega) _ _
  have hfits : w * pos n r items.length + w ≤ mem.length := by
    rw [h.size]
    exact record_fits hpos
  obtain ⟨mem', hs⟩ : ∃ mem', store mem _ e = some mem' := ⟨_, if_pos hfits⟩
  refine ⟨mem', hs, by rw [store_length hs, h.size],
    h.start, by simpa using Nat.succ_le_of_lt hroom, ?_⟩
  intro k hk
  rw [length_append, length_singleton] at hk
  by_cases hlast : k = items.length
  · subst hlast
    simpa using load_store_same hs
  · have hk' : k < items.length := by omega
    rw [getElem?_append_left hk', getElem?_eq_getElem hk']
    apply load_store_other hs _ ((h.at_pos k hk').trans (getElem?_eq_getElem hk'))
    apply records_apart
    intro heq
    exact hlast (pos_inj (by omega) hroom heq)

theorem Lays.pop {e : Record α w} (h : Lays mem n r (e :: rest)) :
    load mem w (w * r) = some e ∧ Lays mem n (pos n r 1) rest := by
  apply And.intro
  · simpa [pos_zero h.start] using h.at_pos 0 (by simp)
  · have hroom := h.room
    rw [length_cons] at hroom
    refine ⟨h.size, pos_lt (by omega) _ _, by omega, ?_⟩
    intro k hk
    rw [pos_pos, Nat.add_comm]
    simpa using h.at_pos (k + 1) (by simpa using hk)

theorem Lays.nil {items : List (Record α w)} (h : Lays mem n r items) : Lays (w := w) mem n r [] :=
  ⟨h.size, h.start, by simp, by simp⟩

/-- The ring of `n` records whose ends are `read` and `write` holds `items`. -/
def Holds (mem : List α) (n read write : Nat) (items : List (Record α w)) : Prop :=
  ∃ r, Lays mem n r items ∧ items.length < n ∧ read = w * r ∧ write = w * pos n r items.length

theorem Holds.empty (hsize : mem.length = w * n) (hn : 0 < n) :
    Holds (w := w) (α := α) mem n 0 0 [] :=
  ⟨0, ⟨hsize, hn, by simp, by simp⟩, hn, by simp, by simp [pos_zero hn]⟩

section
variable {read : Nat} {items : List (Record α w)}

theorem Holds.size (h : Holds mem n read write items) : mem.length = w * n :=
  h.choose_spec.1.size

section
variable (h : Holds mem n read write items) (hw : 0 < w)
include h hw

theorem Holds.count_eq : count (w * n) w read write = items.length := by
  obtain ⟨r, hlays, hlt, rfl, rfl⟩ := h
  exact count_pos hw hlays.start hlt

theorem Holds.contents_eq : contents mem w read write = items := by
  have hcount := h.count_eq hw
  obtain ⟨r, hlays, hlt, rfl, rfl⟩ := h
  unfold contents
  rw [hlays.size, hcount]
  have hmap : (range items.length).map (fun k => load mem w ((w * r + w * k) % (w * n))) =
      items.map some := by
    apply ext_getElem (by simp)
    intro k hk _
    rw [length_map, length_range] at hk
    rw [getElem_map, getElem_map, getElem_range, ← Nat.mul_add,
      Nat.mul_mod_mul_left, ← getElem?_eq_getElem hk]
    exact hlays.at_pos k hk
  simpa using congrArg (filterMap id) hmap

theorem Holds.read_eq_write_iff : read = write ↔ items = [] := by
  obtain ⟨r, hlays, hlt, rfl, rfl⟩ := h
  rw [Nat.mul_left_cancel_iff hw, eq_comm, ← length_eq_zero_iff]
  have hzero : pos n r 0 = r := pos_zero hlays.start
  constructor
  · intro heq
    exact pos_inj hlt (by omega) (heq.trans hzero.symm)
  · intro heq
    rw [heq, hzero]

theorem Holds.next_write_eq_iff : next (w * n) w write = read ↔ items.length + 1 = n := by
  obtain ⟨r, hlays, hlt, rfl, rfl⟩ := h
  rw [next_pos hw hlays.start, Nat.mul_left_cancel_iff hw]
  exact pos_eq_start_iff hlays.start hlt

theorem Holds.push (hroom : items.length + 1 < n) (e : Record α w) :
    ∃ mem', store mem write e = some mem' ∧
      Holds mem' n read (next (w * n) w write) (items ++ [e]) := by
  obtain ⟨r, hlays, hlt, rfl, rfl⟩ := h
  obtain ⟨mem', hs, hlays'⟩ := hlays.push hlt e
  refine ⟨mem', hs, r, hlays', by simpa using hroom, rfl, ?_⟩
  simp [next_pos hw hlays.start]

theorem Holds.push_full (hfull : items.length + 1 = n) (e : Record α w) :
    ∃ mem', store mem write e = some mem' ∧ next (w * n) w write = read ∧
      Holds (w := w) mem' n read read [] := by
  have hnext := (h.next_write_eq_iff hw).2 hfull
  obtain ⟨r, hlays, hlt, rfl, rfl⟩ := h
  obtain ⟨mem', hs, hlays'⟩ := hlays.push hlt e
  refine ⟨mem', hs, hnext, r, hlays'.nil, by simp; omega, rfl, ?_⟩
  rw [length_nil, pos_zero hlays.start]

theorem Holds.push_cover (hfull : items.length + 1 = n) (e : Record α w) :
    ∃ mem', store mem write e = some mem' ∧
      Holds mem' n (next (w * n) w read) read (items ++ [e]).tail := by
  have hnext := (h.next_write_eq_iff hw).2 hfull
  obtain ⟨r, hlays, hlt, rfl, rfl⟩ := h
  obtain ⟨mem', hs, hlays'⟩ := hlays.push hlt e
  obtain ⟨oldest, rest, hrest⟩ := exists_cons_of_length_pos
    (show 0 < (items ++ [e]).length by simp)
  have hlen : rest.length + 1 = n := by
    have := congrArg List.length hrest
    simp at this
    omega
  rw [hrest] at hlays' ⊢
  refine ⟨mem', hs, pos n r 1, hlays'.pop.2, by simp; omega, ?_, ?_⟩
  · simpa [pos_zero hlays.start] using next_pos hw hlays.start 0
  · rw [tail_cons, pos_pos, Nat.add_comm, hlen, pos, Nat.add_mod_right,
      Nat.mod_eq_of_lt hlays.start]

end

theorem Holds.pop {e : Record α w} (h : Holds mem n read write (e :: items)) (hw : 0 < w) :
    load mem w read = some e ∧ Holds mem n (next (w * n) w read) write items := by
  obtain ⟨r, hlays, hlt, rfl, rfl⟩ := h
  rw [length_cons] at hlt ⊢
  refine ⟨hlays.pop.1, pos n r 1, hlays.pop.2, by omega, ?_, ?_⟩
  · simpa [pos_zero hlays.start] using next_pos hw hlays.start 0
  · rw [pos_pos, Nat.add_comm]

end

end SwApi.Library.RingBuffer
