import SwApi.HashMap.Guarantees

/-! The map against the finite map its users have in mind. `hashmap_put` never looks for an existing
element, so a second put leaves two elements behind. -/
namespace SwApi.HashMap
open Library CyclicProbe Option Function

def remember (store : Key t → Option Value) : Op t × Status → Key t → Option Value
  | (.put arg value, .ok) =>
      match arg.key? with
      | some key => update store key (some value)
      | none => store
  | (.remove arg, .ok) =>
      match arg.key? with
      | some key => update store key none
      | none => store
  | _ => store

/-- The value of the last put of each key that no successful removal followed. -/
def lastPut (history : List (Op t × Status)) : Key t → Option Value :=
  history.foldl remember fun _ => none

def answer (store : Key t → Option Value) (arg : Arg t) : Status × Option Value :=
  match arg.key? with
  | none => (.missing, none)
  | some key =>
      match store key with
      | some value => (.ok, some value)
      | none => (.missing, some 0)

def FitsAbsent (s : Map t × Heap) : Op t → Prop
  | .put arg _ => s.1.Roomy ∧ (swHashmapGet s.1 arg).map Prod.fst ≠ some .ok
  | .get _ => True
  | .remove _ => True

instance (s : Map t × Heap) (op : Op t) : Decidable (FitsAbsent s op) := by
  rcases op with _ | _ <;> dsimp only [FitsAbsent] <;> infer_instance

@[simp] theorem remember_get : remember store (.get arg, status) = store := by
  cases status <;> rfl

@[simp] theorem lastPut_snoc : lastPut (history ++ [call]) = remember (lastPut history) call := by
  simp [lastPut]

/-- The concrete table represents `store`, each key in one slot at most. -/
structure Represents (m : Map t) (store : Key t → Option Value) : Prop where
  wf : m.WellFormed
  chained : m.Chained
  once : ∀ key, m.copies key ≤ 1
  lookup : ∀ key, m.lookup key = store key

theorem Represents.get {m : Map t} (rep : Represents m store)
    (arg : Arg t) : swHashmapGet m arg = some (answer store arg) := by
  rw [swHashmapGet_eq rep.wf]
  unfold answer
  cases arg.key? with
  | none => rfl
  | some key => cases hs : store key <;> simp only [rep.lookup, hs]

theorem Represents.rehashed (rep : Represents m store)
    (re : Rehashed m m₁ m.tableSize) : Represents m₁ store where
  wf := re.fresh.wf
  chained := re.fresh.chained
  once key := by
    rw [re.copies, List.take_of_length_le (by rw [rep.wf.length])]
    exact rep.once key
  lookup key := by
    rw [re.lookup, List.take_of_length_le (by rw [rep.wf.length]),
      firstOf_eq_lookup rep.wf rep.chained (rep.once key), rep.lookup]

theorem Represents.inserted {m m' : Map t} (rep : Represents m store)
    (valid : key.arg.key? = some key) (absent : store key = none)
    (ins : Inserted m m' key value d stored) : Represents m' (update store key (some value)) where
  wf := inserted_wellFormed rep.wf ins valid
  chained := inserted_chained rep.wf ins rep.chained
  once k := by
    rw [inserted_copies rep.wf ins]
    by_cases hk : k = key
    · have h0 := (lookup_eq_none_iff rep.wf rep.chained key).1 ((rep.lookup key).trans absent)
      rw [hk, h0, if_pos rfl]
    · rw [if_neg hk]
      exact rep.once k
  lookup k := by
    by_cases hk : k = key
    · subst hk
      rw [update_self]
      exact inserted_lookup_absent rep.wf ins valid ((rep.lookup k).trans absent)
    · rw [update_of_ne hk, ← rep.lookup]
      exact inserted_lookup_other rep.wf ins valid rep.chained hk

theorem Represents.removed {m : Map t} (rep : Represents m store) (hf : m.FoundAt key d) :
    Represents (removedMap m key d) (update store key none) where
  wf := removed_wellFormed rep.wf hf
  chained := removed_chained rep.wf hf rep.chained
  once k := by
    rw [removed_copies rep.wf hf]
    have := rep.once k
    omega
  lookup k := by
    by_cases hk : k = key
    · subst hk
      have hone := rep.once k
      rw [update_self, lookup_eq_none_iff (removed_wellFormed rep.wf hf)
        (removed_chained rep.wf hf rep.chained), removed_copies rep.wf hf, if_pos rfl]
      omega
    · rw [update_of_ne hk, ← rep.lookup]
      exact removed_lookup_other rep.wf hf hk

theorem step_represents {alloc : Alloc} (all : ∀ n, alloc n = true) (rep : Represents s.1 store)
    (ok : FitsAbsent s op) (h : step alloc s op = some (status, s')) :
    Represents s'.1 (remember store (op, status)) := by
  have fits : Fits s op := by
    cases op with
    | put arg value => exact ok.1
    | get arg | remove arg => trivial
  cases Stepped.of_step rep.wf fits h with
  | @put key value _ _ _ harg hstep =>
    have absent : store key = none := by
      cases hs : store key with
      | none => rfl
      | some v =>
        refine absurd ?_ ok.2
        rw [rep.get]
        simp [answer, harg, hs]
    have valid := Arg.arg_of_key? harg
    obtain ⟨rfl, m₁, d, stored, ins, rfl | re⟩ := hstep.inserts all
    · simpa only [remember, harg] using rep.inserted valid absent ins
    · simpa only [remember, harg] using (rep.rehashed re).inserted valid absent ins
  | removed harg hf => simpa only [remember, harg] using rep.removed hf
  | got => exact remember_get ▸ rep
  | rejected | missing => exact rep

/-- The map refines a finite map on every run that puts a key only while it is
absent: each lookup answers with the last put that was not removed. -/
theorem run_refines_finiteMap {alloc : Alloc} (all : ∀ n, alloc n = true) {size : Int}
    (hsize : 1 ≤ size) (hbytes : size < 2^28) {w w₀ : Heap} {m₀ : Map t}
    (hcreate : swHashmapCreate alloc t size w = (some m₀, w₀))
    {history : List (Op t × Status)} {s : Map t × Heap}
    (run : Run (step alloc) FitsAbsent (m₀, w₀) history s) (arg : Arg t) :
    swHashmapGet s.1 arg = some (answer (lastPut history) arg) := by
  obtain ⟨fresh, hcopies, hlookup⟩ := create_fresh (by omega) hbytes hcreate
  refine (Run.invariant (fun history s => Represents s.1 (lastPut history)) ?_ ?_ run).get arg
  · exact ⟨fresh.wf, fresh.chained, fun key => by rw [hcopies]; omega, hlookup⟩
  · intro history s op status s' rep ok h
    rw [lastPut_snoc]
    exact step_represents all rep ok h

/-- Put, remove and put again on a table of one slot. -/
theorem run_refines_finiteMap_reput : ∃ (history : List (Op .digital × Status))
    (s : Map .digital × Heap),
      exec (step fun _ => true) FitsAbsent (⟨1, 0, [Slot.zero], 1⟩, ⟨3, []⟩)
        [.put (1 : UInt32) 10, .put (2 : UInt32) 20, .remove (1 : UInt32), .put (1 : UInt32) 11] =
          some (history, s) ∧ swHashmapGet s.1 (1 : UInt32) =
          some (answer (lastPut history) (1 : UInt32)) := by
  refine exists_exec (fun _ _ => True) (by decide +kernel) ?_
  intro history s he _
  have hcreate : swHashmapCreate (fun _ => true) .digital 1 ⟨0, []⟩ =
      (some ⟨1, 0, [Slot.zero], 1⟩, ⟨3, []⟩) := rfl
  exact run_refines_finiteMap (fun _ => rfl) (by decide) (by decide) hcreate (.of_exec he)
    (1 : UInt32)

/-- Two puts of key 1: the lookup answers with the first of them. -/
theorem second_put_is_lost : ∃ (history : List (Op .digital × Status)) (s : Map .digital × Heap),
      swHashmapCreate (fun _ => true) .digital 2 ⟨0, []⟩ = (some ⟨2, 0, [Slot.zero, Slot.zero], 1⟩,
      ⟨3, []⟩) ∧ exec (step fun _ => true) Fits (⟨2, 0, [Slot.zero, Slot.zero], 1⟩, ⟨3, []⟩)
        [.put (1 : UInt32) 10, .put (1 : UInt32) 20] = some (history, s) ∧
      swHashmapGet s.1 (1 : UInt32) = some (.ok, some 10) ∧
      answer (lastPut history) (1 : UInt32) = (.ok, some 20) := by
  exact exists_exec_and _ (by decide +kernel) rfl fun _ _ => id

end SwApi.HashMap
