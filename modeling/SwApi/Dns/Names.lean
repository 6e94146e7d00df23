import SwApi.Dns.Model
import SwApi.Library.Orbit

/-! The walk of `parse_alias` over a response, without its accesses: where it ends, and what it has
spelled then. -/
namespace SwApi.Dns
open Library

variable {buf : Memory} {size pos : Nat}

@[simp] theorem slice_length : (slice buf i n).length = n := by
  simp [slice]

theorem slice_add : slice buf i (m + n) = slice buf i m ++ slice buf (i + m) n := by
  rw [slice, List.range_add, List.map_append, List.map_map]
  congr 1
  apply List.map_congr_left
  intro k _
  exact congrArg buf (Nat.add_assoc i m k).symm

theorem slice_succ : slice buf i (n + 1) = buf i :: slice buf (i + 1) n := by
  rw [Nat.add_comm n 1, slice_add]
  rfl

theorem slice_append (h : slice buf i (s ++ t).length = s ++ t) :
    slice buf i s.length = s ∧ slice buf (i + s.length) t.length = t := by
  rw [List.length_append, slice_add] at h
  exact List.append_inj h slice_length

theorem slice_cons (h : slice buf i (b :: t).length = b :: t) : buf i = b ∧
    slice buf (i + 1) t.length = t := by
  rw [List.length_cons, slice_succ] at h
  exact List.cons.inj h

/-- The variables after a round that another one follows. -/
def Alias.next (buf : Memory) (size : Nat) (c : Alias) : Option Alias :=
  if c.i < size then
    if buf c.i = 0 then none
    else if isPointer (buf c.i) then some (c.redirect (pointee (buf c.i) (buf (c.i + 1))))
    else some (c.label (slice buf (c.i + 1) (buf c.i).toNat))
  else none

def Alias.leave (size : Nat) (c : Alias) : Alias :=
  if c.i < size then { c with len := c.count 1 } else c

theorem aliasRound_result (buf : Memory) (size : Nat) (c : Alias) :
    (aliasRound buf size c).result =
      some ((c.next buf size).elim (false, c.leave size) fun c' => (true, c')) := by
  unfold aliasRound Alias.next Alias.leave
  split
  · rw [Trace.result_bind]
    show (if buf c.i = 0 then _ else _ : Trace Event (Bool × Alias)).result = _
    split
    · rfl
    · split <;> rfl
  · rfl

theorem aliasLoop_result : (aliasLoop buf size fuel c).result = some d ↔
      ∃ k b, k < fuel ∧ after (Alias.next buf size) k c = some b ∧ b.next buf size = none ∧
        b.leave size = d := by
  induction fuel generalizing c with
  | zero =>
    constructor
    · intro h
      cases h
    · rintro ⟨k, b, hk, -⟩
      exact absurd hk (Nat.not_lt_zero k)
  | succ fuel ih =>
    rw [aliasLoop, Trace.result_bind, aliasRound_result, Option.bind_some]
    cases hnext : c.next buf size with
    | none =>
      constructor
      · intro h
        exact ⟨0, c, Nat.succ_pos fuel, rfl, hnext, Option.some.inj h⟩
      · rintro ⟨k, b, -, hk, hb, rfl⟩
        have heq := Ends.unique (.stop hnext) ⟨k, hk, hb⟩
        rw [heq]
        rfl
    | some c' =>
      refine Iff.trans ih ?_
      constructor
      · rintro ⟨k, b, hlt, hk, hb, hd⟩
        exact ⟨k + 1, b, Nat.succ_lt_succ hlt, by rw [after, hnext]; exact hk, hb, hd⟩
      · rintro ⟨k, b, hlt, hk, hb, hd⟩
        cases k with
        | zero =>
          cases hk
          rw [hnext] at hb
          cases hb
        | succ k =>
          rw [after, hnext] at hk
          exact ⟨k, b, Nat.lt_of_succ_lt_succ hlt, hk, hb, hd⟩

def Alias.start (pos : Nat) : Alias := ⟨pos, 0, 0, []⟩

/-- `parse_alias` returns `n` and leaves `name` in `ret_alias`. -/
def Spells (buf : Memory) (size pos : Nat) (name : Bytes) (n : Nat) : Prop :=
  ∃ b, Ends (Alias.next buf size) (Alias.start pos) b ∧
    (b.leave size).retAlias = name ∧ (b.leave size).len = n

theorem parseAlias_result_inv
    (h : (parseAlias fuel buf size pos).result = some (n, name)) : Spells buf size pos name n := by
  rw [parseAlias, Trace.result_bind] at h
  obtain ⟨c, hc, h⟩ := Option.bind_eq_some_iff.1 h
  obtain ⟨k, b, -, hk, hb, rfl⟩ := aliasLoop_result.1 hc
  cases h
  exact ⟨b, ⟨k, hk, hb⟩, rfl, rfl⟩

theorem Spells.result (h : Spells buf size pos name n) :
    ∃ enough, ∀ fuel, enough ≤ fuel → (parseAlias fuel buf size pos).result = some (n, name) := by
  obtain ⟨b, ⟨k, hk, hb⟩, rfl, rfl⟩ := h
  refine ⟨k + 1, ?_⟩
  intro fuel hfuel
  have hloop := aliasLoop_result.2 ⟨k, b, Nat.lt_of_succ_le hfuel, hk, hb, rfl⟩
  rw [parseAlias, Trace.result_bind]
  show Option.bind (aliasLoop buf size fuel (Alias.start pos)).result _ = _
  rw [hloop]
  rfl

def nextPosition (buf : Memory) (size i : Nat) : Option Nat :=
  if i < size then
    if buf i = 0 then none
    else if isPointer (buf i) then some (pointee (buf i) (buf (i + 1)))
    else some (i + 1 + (buf i).toNat)
  else none

def positionOf (buf : Memory) (size pos round : Nat) : Option Nat :=
  after (nextPosition buf size) round pos

theorem next_position (buf : Memory) (size : Nat) (c : Alias) :
    (c.next buf size).map Alias.i = nextPosition buf size c.i := by
  unfold Alias.next nextPosition
  split
  · split
    · rfl
    · split
      · rfl
      · simp [Alias.label]
  · rfl

theorem next_none_iff {c : Alias} : c.next buf size = none ↔ nextPosition buf size c.i = none := by
  rw [← next_position, Option.map_eq_none_iff]

theorem spells_iff_ends :
    (∃ name n, Spells buf size pos name n) ↔ ∃ p, Ends (nextPosition buf size) pos p := by
  have hmap := after_map (next_position buf size)
  constructor
  · rintro ⟨-, -, b, ⟨k, hk, hb⟩, -, -⟩
    refine ⟨b.i, k, ?_, next_none_iff.1 hb⟩
    rw [← show (Alias.start pos).i = pos from rfl, ← hmap, hk]
    rfl
  · rintro ⟨p, k, hk, hp⟩
    rw [← show (Alias.start pos).i = pos from rfl, ← hmap] at hk
    obtain ⟨b, hb, rfl⟩ := Option.map_eq_some_iff.1 hk
    exact ⟨_, _, b, ⟨k, hb, next_none_iff.2 hp⟩, rfl, rfl⟩

theorem returns_iff_ends :
    (∃ fuel, (parseAlias fuel buf size pos).result.isSome) ↔
    ∃ p, Ends (nextPosition buf size) pos p := by
  rw [← spells_iff_ends]
  constructor
  · rintro ⟨fuel, h⟩
    obtain ⟨⟨n, name⟩, h⟩ := Option.isSome_iff_exists.1 h
    exact ⟨name, n, parseAlias_result_inv h⟩
  · rintro ⟨name, n, h⟩
    obtain ⟨enough, henough⟩ := h.result
    exact ⟨enough, by rw [henough enough (Nat.le_refl _)]; rfl⟩

theorem nextPosition_outside (h : size ≤ p) : nextPosition buf size p = none :=
  if_neg (Nat.not_lt.2 h)

/-- `parse_alias` returns exactly when no two rounds are at one position. -/
theorem returns_iff_no_return (buf : Memory) (size pos : Nat) :
    (∃ fuel, (parseAlias fuel buf size pos).result.isSome) ↔
      ∀ j k p, positionOf buf size pos j = some p → positionOf buf size pos k = some p → j = k := by
  rw [returns_iff_ends]
  exact ends_iff_no_return fun p hp => nextPosition_outside hp

/-- A name behind the header that points to itself. -/
def ownPointer : Memory := fun i => if i = 12 then 0xc0 else if i = 13 then 12 else 0

theorem pointer_to_itself_never_ends : ¬∃ fuel,
    (parseAlias fuel ownPointer 14 12).result.isSome := by
  rw [returns_iff_ends, ends_iff_no_return fun p hp => nextPosition_outside hp]
  intro h
  exact absurd (h 0 1 12 rfl (by decide +kernel)) (by decide)

def dotted (labels : List Bytes) : Bytes := [46].intercalate labels

def IsLabel (label : Bytes) : Prop := 0 < label.length ∧ label.length ≤ 63

/-- The labels of a name at a position, and the bytes it takes there. A pointer leads back. -/
inductive NameAt (buf : Memory) (size : Nat) : Nat → List Bytes → Nat → Prop where
  | root {pos : Nat} : pos < size → buf pos = 0 → NameAt buf size pos [] 1
  | label {pos : Nat} {label : Bytes} {labels : List Bytes} {n : Nat} : IsLabel label →
    buf pos = UInt8.ofNat label.length →
      slice buf (pos + 1) label.length = label → NameAt buf size (pos + 1 + label.length) labels n →
      NameAt buf size pos (label :: labels) (1 + label.length + n)
  | pointer {pos : Nat} {labels : List Bytes} {n : Nat} : pos + 1 < size →
    isPointer (buf pos) = true → pointee (buf pos) (buf (pos + 1)) < pos →
      NameAt buf size (pointee (buf pos) (buf (pos + 1))) labels n → NameAt buf size pos labels 2

def joined : Bytes → List Bytes → Bytes
  | s, [] => s
  | s, label :: labels => joined (s ++ (if 0 < s.length then [46] else []) ++ label) labels

theorem joined_of_pos (hs : 0 < s.length) : joined s labels = s ++ labels.flatMap (46 :: ·) := by
  induction labels generalizing s with
  | nil => simp [joined]
  | cons label labels ih =>
    rw [joined, if_pos hs, ih (by simp only [List.length_append]; omega)]
    simp

theorem dotted_cons (label : Bytes) (labels : List Bytes) :
    dotted (label :: labels) = label ++ labels.flatMap (46 :: ·) := by
  induction labels generalizing label with
  | nil => simp [dotted]
  | cons next labels ih =>
    have hnext := ih next
    unfold dotted at hnext ⊢
    rw [List.intercalate_cons_cons, hnext]
    simp

theorem joined_nil (h : ∀ label ∈ labels, IsLabel label) : joined [] labels = dotted labels := by
  cases labels with
  | nil => rfl
  | cons label labels =>
    have hpos : 0 < (([] : Bytes) ++ [] ++ label).length := (h label List.mem_cons_self).1
    have hdot : (if 0 < ([] : Bytes).length then [46] else [] : Bytes) = [] := rfl
    rw [joined, hdot, joined_of_pos hpos, dotted_cons]
    rfl

theorem isPointer_of_le : ∀ n < 64, isPointer (UInt8.ofNat n) = false := by decide

theorem ofNat_toNat_of_le (h : n ≤ 63) : (UInt8.ofNat n).toNat = n := by
  rw [UInt8.toNat_ofNat']
  omega

theorem ofNat_ne_zero (hpos : 0 < n) (h : n ≤ 63) : UInt8.ofNat n ≠ 0 := by
  intro heq
  have hzero := congrArg UInt8.toNat heq
  rw [ofNat_toNat_of_le h] at hzero
  exact absurd hzero (Nat.pos_iff_ne_zero.1 hpos)

theorem NameAt.lt (h : NameAt buf size pos labels n) : pos < size := by
  induction h with
  | root hlt _ => exact hlt
  | label _ _ _ _ ih | pointer hlt _ _ _ _ => omega

theorem NameAt.labels {labels : List Bytes} (h : NameAt buf size pos labels n) :
    ∀ label ∈ labels, IsLabel label := by
  induction h with
  | root _ _ => exact List.forall_mem_nil _
  | label hlabel _ _ _ ih =>
    intro label hl
    rcases List.mem_cons.1 hl with rfl | hl
    · exact hlabel
    · exact ih label hl
  | pointer _ _ _ _ ih => exact ih

/-- The walk over a name, from any variables: by induction on the name, a pointer being followed
like what it names. -/
theorem NameAt.walk {labels : List Bytes} (h : NameAt buf size pos labels n) (hi : c.i = pos) :
    ∃ b, Ends (Alias.next buf size) c b ∧ (b.leave size).retAlias = joined c.retAlias labels ∧
      (b.leave size).len = c.count n := by
  induction h generalizing c with
  | root hlt hzero =>
    subst hi
    refine ⟨c, .stop ?_, ?_, ?_⟩
    · rw [Alias.next, if_pos hlt, if_pos hzero]
    · rw [Alias.leave, if_pos hlt]
      rfl
    · rw [Alias.leave, if_pos hlt]
  | label hlabel hlength hslice hname ih =>
    rename_i pos label labels n
    subst hi
    have hle := hlabel.2
    have hlt : c.i < size := by
      have := hname.lt
      omega
    have hstep : c.next buf size = some (c.label label) := by
      rw [Alias.next, if_pos hlt, hlength, if_neg (ofNat_ne_zero hlabel.1 hle),
        isPointer_of_le _ (Nat.lt_succ_of_le hle), if_neg Bool.false_ne_true, ofNat_toNat_of_le hle,
          hslice]
    obtain ⟨b, hends, hretAlias, hlen⟩ := ih (c := c.label label) rfl
    refine ⟨b, hends.step hstep, hretAlias, ?_⟩
    rw [hlen]
    unfold Alias.count Alias.label Alias.count
    split
    · exact Nat.add_assoc _ _ _
    · rfl
  | pointer hlt hpointer _ _ ih =>
    subst hi
    have hne : buf c.i ≠ 0 := by
      intro hzero
      rw [hzero] at hpointer
      exact absurd hpointer (by decide)
    have hstep : c.next buf size = some (c.redirect (pointee (buf c.i) (buf (c.i + 1)))) := by
      rw [Alias.next, if_pos (Nat.lt_of_succ_lt hlt), if_neg hne, if_pos hpointer]
    obtain ⟨b, hends, hretAlias, hlen⟩ :=
      ih (c := c.redirect (pointee (buf c.i) (buf (c.i + 1)))) rfl
    refine ⟨b, hends.step hstep, hretAlias, ?_⟩
    rw [hlen]
    exact if_neg (Nat.succ_ne_zero c.redirectCnt)

theorem NameAt.spells {labels : List Bytes} (h : NameAt buf size pos labels n) :
    Spells buf size pos (dotted labels) n := by
  obtain ⟨b, hends, hretAlias, hlen⟩ := h.walk (c := Alias.start pos) rfl
  refine ⟨b, hends, ?_, ?_⟩
  · rw [hretAlias]
    exact joined_nil h.labels
  · rw [hlen]
    exact Nat.zero_add n

end SwApi.Dns
