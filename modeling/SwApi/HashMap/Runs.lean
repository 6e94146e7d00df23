import SwApi.HashMap.Removal
import SwApi.Library.Transition

/-! Whole runs from `sw_hashmap_create` on, and the invariants every call keeps. -/
namespace SwApi.HashMap
open Library CyclicProbe Option

/-- A put that finds the table full doubles it within a 32-bit byte count. -/
def Fits (s : Map t × Heap) : Op t → Prop
  | .put _ _ => s.1.Roomy
  | .get _ => True
  | .remove _ => True

instance (s : Map t × Heap) (op : Op t) : Decidable (Fits s op) := by
  unfold Fits
  split <;> infer_instance

theorem rounds_eq : rounds = 30 + 2 := rfl

theorem swHashmapPut_step (alloc : Alloc) (wf : m.WellFormed) (roomy : m.Roomy)
    (harg : arg.key? = some key) (value : Value) (w : Heap) :
    ∃ status m' w', swHashmapPut alloc m arg value w = some (status, m', w') ∧
      PutStep alloc w.calls m key value status m' := by
  simp only [swHashmapPut, harg, rounds_eq]
  exact hashmapPut_step alloc 30 wf roomy key value w

theorem PutStep.wellFormed (wf : m.WellFormed) (valid : key.arg.key? = some key)
    (h : PutStep alloc calls m key value status m') : m'.WellFormed := by
  cases h with
  | stored _ _ ins => exact inserted_wellFormed wf ins valid
  | refused _ _ ref => exact refused_wellFormed wf ref
  | noTable => exact wf
  | halfway _ _ _ _ _ re => exact re.fresh.wf
  | grown _ _ _ _ re ins => exact inserted_wellFormed re.fresh.wf ins valid
  | grownRefused _ _ _ _ re ref => exact refused_wellFormed re.fresh.wf ref

/-- What one call does. -/
inductive Stepped (alloc : Alloc) (s : Map t × Heap) : Op t → Status → Map t × Heap → Prop where
  | rejected (harg : arg.key? = none) : Stepped alloc s (.put arg value) .invalidKey s
  | put (harg : arg.key? = some key) (hstep : PutStep alloc s.2.calls s.1 key value status s'.1) :
      Stepped alloc s (.put arg value) status s'
  | got : Stepped alloc s (.get arg) status s
  | missing (hmissing : ∀ key, arg.key? = some key →
      ¬∃ d, s.1.FoundAt key d ∧ ∀ e < d, (s.1.probed (hashOf key) e).inUse ≠ .deleted) :
      Stepped alloc s (.remove arg) .missing s
  | removed (harg : arg.key? = some key) (hf : s.1.FoundAt key d) :
    Stepped alloc s (.remove arg) .ok
      (removedMap s.1 key d, s.2.freeValue t (s.1.probed (hashOf key) d).value)

theorem exists_stepped (alloc : Alloc) (wf : s.1.WellFormed) (fits : Fits s op) :
    ∃ status s', step alloc s op = some (status, s') ∧ Stepped alloc s op status s' := by
  cases op with
  | put arg value =>
    cases harg : arg.key? with
    | none => exact ⟨.invalidKey, s, by simp [step, swHashmapPut, harg], .rejected harg⟩
    | some key =>
      obtain ⟨status, m', w', hput, hstep⟩ := swHashmapPut_step alloc wf fits harg value s.2
      exact ⟨status, (m', w'), hput, .put harg hstep⟩
  | get arg => exact ⟨_, s, by simp [step, swHashmapGet_eq wf]; rfl, .got⟩
  | remove arg =>
    cases harg : arg.key? with
    | none => exact ⟨.missing, s, by simp [step, swHashmapRemove, harg], .missing (by simp [harg])⟩
    | some key =>
      rcases swHashmapRemove_cases wf harg s.2 with ⟨d, hf, -, hrm⟩ | ⟨hmissing, hrm⟩
      · exact ⟨.ok, _, hrm, .removed harg hf⟩
      · exact ⟨.missing, s, hrm, .missing fun k hk => some.inj (harg.symm.trans hk) ▸ hmissing⟩

theorem Stepped.of_step (wf : s.1.WellFormed) (fits : Fits s op)
    (h : step alloc s op = some (status, s')) : Stepped alloc s op status s' := by
  obtain ⟨status', s'', h', hstepped⟩ := exists_stepped alloc wf fits
  cases some.inj (h'.symm.trans h)
  exact hstepped

theorem Stepped.wellFormed (wf : s.1.WellFormed) (h : Stepped alloc s op status s') :
    s'.1.WellFormed := by
  cases h with
  | put harg hstep => exact hstep.wellFormed wf (Arg.arg_of_key? harg)
  | removed _ hf => exact removed_wellFormed wf hf
  | rejected | got | missing => exact wf

theorem create_fresh (hsize : size ≠ 0) (hbytes : size < 2^28)
    (hcreate : swHashmapCreate alloc t size w = (some m₀, w₀)) :
    m₀.Fresh ∧ (∀ key, m₀.copies key = 0) ∧ ∀ key, m₀.lookup key = none := by
  have hm : m₀.tableSize = (if size < 0 then 1024 else size.toNat) ∧ m₀.size = 0 ∧
      m₀.data = zeroed m₀.tableSize := by
    cases h0 : alloc w.calls <;> cases h1 : alloc (w.calls + 1) <;>
      cases h2 : alloc (w.calls + 1 + 1) <;>
      simp [swHashmapCreate, Heap.malloc, h0, h1, h2] at hcreate
    obtain ⟨rfl, -⟩ := hcreate
    exact ⟨rfl, rfl, rfl⟩
  have hrange : 0 < m₀.tableSize ∧ m₀.tableSize < 2^28 := by
    rw [hm.1]
    split <;> omega
  exact fresh_of_zeroed hrange.1 hrange.2 hm.2.1 hm.2.2

theorem copied_of_all (all : ∀ n, alloc n = true) (t : KeyType) (calls : Nat) :
    copied alloc t calls = true := by
  cases t with
  | digital => rfl
  | string => exact all calls

theorem firstOf_eq_some {slots : List (Slot t)} (h : firstOf slots key = some v) :
    ∃ (i : Nat) (s : Slot t), slots[i]? = some s ∧ s.has key ∧ s.value = v := by
  obtain ⟨s, hs, rfl⟩ := map_eq_some_iff.1 h
  have hmem := List.mem_of_find?_eq_some hs
  obtain ⟨i, hi⟩ := List.mem_iff_getElem?.1 hmem
  exact ⟨i, s, hi, by simpa using List.find?_some hs, rfl⟩

theorem slot_unique {m : Map t} (wf : m.WellFormed) (once : m.copies key ≤ 1)
    (hf : m.FoundAt key d) (hj : j < m.tableSize) (hhas : (m.slot j).has key) :
    j = m.index (hashOf key) d := by
  by_contra hne
  have h0 : (removedMap m key d).copies key = 0 := by
    rw [removed_copies wf hf, if_pos rfl]; omega
  have hstill : ((removedMap m key d).slot j).has key := by
    rw [slot_write wf (index_lt wf _ _), if_neg hne]
    exact hhas
  have := copies_pos_of_slot (removed_wellFormed wf hf) (i := j) hj hstill
  omega

theorem firstOf_eq_lookup {m : Map t} (wf : m.WellFormed) (chained : m.Chained)
    (once : m.copies key ≤ 1) : firstOf m.data key = m.lookup key := by
  cases hfirst : firstOf m.data key with
  | none => exact ((lookup_eq_none_iff wf chained key).2
    (by simpa [firstOf, Map.copies] using hfirst)).symm
  | some v =>
    obtain ⟨j, s, hs, hhas, rfl⟩ := firstOf_eq_some hfirst
    have hj : j < m.tableSize := by
      rw [← wf.length]; exact (List.getElem?_eq_some_iff.1 hs).1
    have hsj : m.slot j = s := some.inj ((data_getElem? wf hj).symm.trans hs)
    obtain ⟨d, hf⟩ := exists_foundAt wf chained hj (hsj ▸ hhas)
    refine ((lookup_eq_some wf key _).2 ⟨d, hf, ?_⟩).symm
    rw [← hsj, slot_unique wf once hf hj (hsj ▸ hhas)]
    rfl

/-- What a put does when every allocation succeeds: it inserts into a table
`m₁` that is the old one, or the old one's elements rehashed. -/
theorem PutStep.inserts {alloc : Alloc} (all : ∀ n, alloc n = true) {calls : Nat} {m m' : Map t}
    (h : PutStep alloc calls m key value status m') :
    status = .ok ∧ ∃ m₁ d stored, Inserted m₁ m' key value d stored ∧
    (m₁ = m ∨ Rehashed m m₁ m.tableSize) := by
  have hc := copied_of_all all t
  cases h with
  | stored _ _ ins => exact ⟨rfl, m, _, _, ins, .inl rfl⟩
  | refused _ copy => rw [hc] at copy; cases copy
  | noTable _ table => rw [all] at table; cases table
  | halfway _ _ _ _ copy => rw [hc] at copy; cases copy
  | grown _ _ _ _ re ins => exact ⟨rfl, _, _, _, ins, .inr re⟩
  | grownRefused _ _ _ copy => rw [hc] at copy; cases copy

theorem Stepped.chained (all : ∀ n, alloc n = true) (wf : s.1.WellFormed) (chained : s.1.Chained)
    (h : Stepped alloc s op status s') : s'.1.Chained := by
  cases h with
  | put _ hstep =>
    obtain ⟨-, m₁, d, stored, ins, rfl | re⟩ := hstep.inserts all
    · exact inserted_chained wf ins chained
    · exact inserted_chained re.fresh.wf ins re.fresh.chained
  | removed _ hf => exact removed_chained wf hf chained
  | rejected | got | missing => exact chained

theorem run_wellFormed (hsize : size ≠ 0) (hbytes : size < 2^28)
    (hcreate : swHashmapCreate alloc t size w = (some m₀, w₀))
    (run : Run (step alloc) Fits (m₀, w₀) history s) : s.1.WellFormed := by
  exact Run.invariant (fun _ s => s.1.WellFormed) (create_fresh hsize hbytes hcreate).1.wf
    (fun _ s op status s' wf fits h => (Stepped.of_step wf fits h).wellFormed wf) run

theorem run_chained (all : ∀ n, alloc n = true) (hsize : size ≠ 0) (hbytes : size < 2^28)
    (hcreate : swHashmapCreate alloc t size w = (some m₀, w₀))
    (run : Run (step alloc) Fits (m₀, w₀) history s) : s.1.WellFormed ∧ s.1.Chained := by
  have h₀ := (create_fresh hsize hbytes hcreate).1
  refine Run.invariant (fun _ s => s.1.WellFormed ∧ s.1.Chained) ⟨h₀.wf, h₀.chained⟩
    (fun _ s op status s' ⟨wf, chained⟩ fits h => ?_) run
  have hstepped := Stepped.of_step wf fits h
  exact ⟨hstepped.wellFormed wf, hstepped.chained all wf chained⟩

end SwApi.HashMap
