import SwApi.CoapClient.Model

/-! `m_client_handle` with the word behind it: which entries are touched, and which request has
which. The sections of `m_mutex` are one step each. -/
namespace SwApi.CoapClient
open Library List Option

/-- `m_client_handle`, with `m_client_max_num` entries, and what lies behind it. Records are
numbered as they are stored; `live` has those that are not deleted, with the index that their
requester got. -/
structure Table where
  slots : List (Option Nat)
  behind : Option Nat
  created : Nat
  live : List (Nat × Nat)
deriving DecidableEq

/-- The entries that a call touched, and its result if it is over. -/
structure Touched where
  accesses : List Nat
  ret : Option Int
deriving DecidableEq

inductive Call where
  | create (built : Bool)
  | delete (r : Nat) (final : Bool)

namespace Table

def init (num : Nat) (behind : Option Nat) : Table := ⟨replicate num none, behind, 0, []⟩

def entry (t : Table) (i : Nat) : Option Nat := if i < t.slots.length then t.slots[i]?.join
    else t.behind

def put (t : Table) (i : Nat) (p : Option Nat) : Table :=
  if i < t.slots.length then { t with slots := t.slots.set i p } else { t with behind := p }

/-- Building the message may fail. The loop reads up to the first free entry, which is read again,
stored to, and read for the log. -/
def create (t : Table) (built : Bool) : Touched × Table :=
  let i := t.slots.findIdx isNone
  let accesses := range (min (i + 1) t.slots.length) ++ [i]
  if built then
    match t.entry i with
    | some _ => (⟨accesses, some (-1)⟩, t)
    | none =>
        (⟨accesses ++ [i, i], some i⟩,
          { t.put i (some t.created) with
            created := t.created + 1, live := t.live ++ [(t.created, i)] })
  else (⟨[], some (-1)⟩, t)

/-- One section of `coap_client_delete`, which waits until the result of the record is final. -/
def delete (t : Table) (r : Nat) (final : Bool) : Option (Touched × Table) := do
  let i ← t.live.lookup r
  let _ ← t.entry i
  if final then
    some (⟨[i, i], some 1⟩, { t.put i none with live := t.live.filter fun a => a.1 ≠ r })
  else some (⟨[i], none⟩, t)

def step (t : Table) : Call → Option (Touched × Table)
  | .create built => some (t.create built)
  | .delete r final => t.delete r final

def Room (t : Table) : Call → Prop
  | .create true => none ∈ t.slots
  | _ => True

instance (t : Table) (call : Call) : Decidable (t.Room call) := by
  unfold Table.Room
  split <;> infer_instance

/-- What is asked of a call of `coap_client_create`: it stays inside the table, it fails exactly
when there is no message or no free entry, and it stores to a free entry or to none. -/
structure Sound (t : Table) (built : Bool) (o : Touched) (t' : Table) : Prop where
  inside : ∀ i ∈ o.accesses, i < t.slots.length
  fails : o.ret = some (-1) ↔ built = false ∨ none ∉ t.slots
  unchanged : o.ret = some (-1) → t'.slots = t.slots
  free : o.ret ≠ some (-1) → ∃ i : Nat, o.ret = some (i : Int) ∧ t.slots[i]? = some none ∧
    t'.slots = t.slots.set i (some t.created)

def Distinct (t : Table) : Prop := ∀ a ∈ t.live, ∀ b ∈ t.live, a.1 ≠ b.1 → a.2 ≠ b.2

structure Placed (t : Table) : Prop where
  numbered : ∀ a ∈ t.live, a.1 < t.created
  stored : ∀ a ∈ t.live, t.slots[a.2]? = some (some a.1)

section
variable {t : Table}

theorem findIdx_free (h : none ∈ t.slots) :
    t.slots.findIdx isNone < t.slots.length ∧ t.slots[t.slots.findIdx isNone]? = some none := by
  have hlt : t.slots.findIdx isNone < t.slots.length := findIdx_lt_length_of_exists ⟨none, h, rfl⟩
  refine ⟨hlt, ?_⟩
  rw [getElem?_eq_getElem hlt, isNone_iff_eq_none.1 (findIdx_getElem (w := hlt))]

theorem findIdx_full (h : none ∉ t.slots) : t.slots.findIdx isNone = t.slots.length := by
  rw [findIdx_eq_length]
  intro p hp
  cases p with
  | none => exact absurd hp h
  | some r => rfl

theorem create_room (h : none ∈ t.slots) :
    t.create true =
      (⟨range (t.slots.findIdx isNone + 1) ++ [t.slots.findIdx isNone] ++
          [t.slots.findIdx isNone, t.slots.findIdx isNone], some (t.slots.findIdx isNone)⟩,
        { t with
          slots := t.slots.set (t.slots.findIdx isNone) (some t.created)
          created := t.created + 1
          live := t.live ++ [(t.created, t.slots.findIdx isNone)] }) := by
  obtain ⟨hlt, hfree⟩ := findIdx_free h
  have hentry : t.entry (t.slots.findIdx isNone) = none := by
    rw [entry, if_pos hlt, hfree, join_some]
  have hmin : min (t.slots.findIdx isNone + 1) t.slots.length = t.slots.findIdx isNone + 1 :=
    Nat.min_eq_left hlt
  simp only [create, if_true, hentry, hmin, put, if_pos hlt]

theorem create_sound_iff (t : Table) (built : Bool) :
    t.Sound built (t.create built).1 (t.create built).2 ↔ t.Room (.create built) := by
  cases built with
  | false => exact ⟨fun _ => trivial, fun _ =>
    ⟨by simp [create], by simp [create], fun _ => rfl, by simp [create]⟩⟩
  | true =>
    constructor
    · intro h
      by_contra hfull
      apply Nat.lt_irrefl t.slots.length
      apply h.inside
      simp only [create, if_true, findIdx_full hfull]
      split <;> simp
    · intro hroom
      have hroom : none ∈ t.slots := hroom
      obtain ⟨hlt, hfree⟩ := findIdx_free hroom
      rw [create_room hroom]
      have hret : ¬(some (t.slots.findIdx isNone : Int) = some (-1)) := by
        rw [some.injEq]
        omega
      refine ⟨?_, ?_, fun h => absurd h hret, fun _ => ⟨_, rfl, hfree, rfl⟩⟩
      · intro i hi
        simp only [mem_append, mem_range, mem_cons, not_mem_nil, or_false] at hi
        omega
      · simp [hroom]

end

theorem Placed.create {t : Table} (h : t.Placed) (hroom : t.Room (.create built)) :
    (t.create built).2.Placed := by
  cases built with
  | false => exact h
  | true =>
    obtain ⟨hlt, hfree⟩ := findIdx_free hroom
    rw [create_room hroom]
    constructor
    · refine forall_mem_append.2 ⟨fun a ha => ?_, forall_mem_singleton.2 (Nat.lt_succ_self _)⟩
      exact Nat.lt_succ_of_lt (h.numbered a ha)
    · refine forall_mem_append.2 ⟨fun a ha => ?_, forall_mem_singleton.2 (getElem?_set_self hlt)⟩
      have hne : t.slots.findIdx isNone ≠ a.2 := fun heq => by
        have hstored := h.stored a ha
        rw [← heq, hfree] at hstored
        cases hstored
      rw [getElem?_set_ne hne]
      exact h.stored a ha

theorem Placed.distinct {t : Table} (h : t.Placed) : t.Distinct := by
  intro a ha b hb hne heq
  have hstored := h.stored a ha
  rw [heq, h.stored b hb] at hstored
  exact hne (some.inj (some.inj hstored)).symm

theorem mem_of_lookup {live : List (Nat × Nat)} (h : live.lookup r = some i) : (r, i) ∈ live := by
  obtain ⟨before, after, rfl, -⟩ := lookup_eq_some_iff.1 h
  exact mem_append_right _ mem_cons_self

theorem Placed.delete {t t' : Table} (h : t.Placed) (hstep : t.delete r final = some (o, t')) :
    t'.Placed := by
  obtain ⟨i, hi, hstep⟩ := bind_eq_some_iff.1 hstep
  obtain ⟨p, -, hstep⟩ := bind_eq_some_iff.1 hstep
  cases final with
  | false =>
    cases hstep
    exact h
  | true =>
    cases hstep
    have hr := h.stored _ (mem_of_lookup hi)
    obtain ⟨hlt, -⟩ := List.getElem?_eq_some_iff.1 hr
    rw [put, if_pos hlt]
    constructor
    · intro a ha
      exact h.numbered a (mem_filter.1 ha).1
    · intro a ha
      obtain ⟨ha, hne⟩ := mem_filter.1 ha
      have hother : i ≠ a.2 := fun heq => by
        have hstored := h.stored a ha
        rw [← heq, hr] at hstored
        exact of_decide_eq_true hne (some.inj (some.inj hstored)).symm
      rw [getElem?_set_ne hother]
      exact h.stored a ha

theorem Placed.step {t t' : Table} (h : t.Placed) (hroom : t.Room call)
    (hstep : t.step call = some (o, t')) : t'.Placed := by
  cases call with
  | create built =>
    have hcreate := h.create hroom
    rw [some.inj hstep] at hcreate
    exact hcreate
  | delete r final => exact h.delete hstep

/-- As long as every message that was built finds a free entry, live requests have different
entries, and the next call of `coap_client_create` is sound exactly when it finds a free entry,
too. -/
theorem create_sound_along {num : Nat} {behind : Option Nat} {history : List (Call × Touched)}
    {t : Table} (h : Run step Room (init num behind) history t) :
    t.Distinct ∧ ∀ built o t', t.step (.create built) = some (o, t') →
    (t.Sound built o t' ↔ t.Room (.create built)) := by
  have hplaced : t.Placed :=
    h.invariant (fun _ t => t.Placed) ⟨by simp [init], by simp [init]⟩ fun _ _ _ _ _ ht hroom
      hstep => ht.step hroom hstep
  refine ⟨hplaced.distinct, fun built o t' hstep => ?_⟩
  have hsound := create_sound_iff t built
  rw [some.inj hstep] at hsound
  exact hsound

/-- Two requests in a table of two entries, of which the first one is deleted. The next one gets the
free entry, and the one without a message is refused. -/
theorem create_sound_along_two : ∃ history t, Run step Room (init 2 none) history t ∧
    t.slots = [none, some 1] ∧ t.Distinct ∧
    (t.create true).1.ret = some 0 ∧ t.Sound true (t.create true).1 (t.create true).2 ∧
    (t.create false).1.ret = some (-1) ∧ t.Sound false (t.create false).1 (t.create false).2 := by
  refine exists_run [.create true, .create true, .delete 0 true]
    (fun _ t => t.slots = [none, some 1] ∧ (t.create true).1.ret = some 0) (by decide +kernel) ?_
  rintro history t hrun ⟨hslots, hret⟩
  obtain ⟨hdistinct, hsound⟩ := create_sound_along hrun
  have hroom : t.Room (.create true) := by
    rw [Room, hslots]
    exact mem_cons_self
  exact ⟨hslots, hdistinct, hret, (hsound true _ _ rfl).2 hroom, rfl,
    (hsound false _ _ rfl).2 trivial⟩

/-- The second request finds the table of one entry full. -/
theorem full_table_is_left : ∃ history t,
    Run step (fun _ _ => True) (init 1 none) history t ∧
    ¬t.Sound true (t.create true).1 (t.create true).2 := by
  have h : Run step (fun _ _ => True) (init 1 none) _ _ :=
    .next .start (a := .create true) trivial rfl
  refine ⟨_, _, h, fun hsound => ?_⟩
  exact absurd (hsound.inside 1 (by decide)) (by decide)

end Table
end SwApi.CoapClient
