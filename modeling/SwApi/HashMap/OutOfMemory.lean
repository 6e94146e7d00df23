import SwApi.HashMap.Guarantees

/-! A put into a string map that runs out of memory at the new table, at a key copy of the rehash or
at the copy of the new key: when users still see the old map. -/
namespace SwApi.HashMap
open Library CyclicProbe Option

/-- The slot a put picks, `d` steps from the home slot of the key. -/
structure Map.FirstVacant (m : Map t) (key : Key t) (d : Nat) : Prop where
  lt : d < m.tableSize
  vacant : (m.probed (hashOf key) d).inUse ≠ .used
  before : ∀ e < d, (m.probed (hashOf key) e).inUse = .used

/-- Of `n` copies, attempted from number `calls` on, the first `i` are made. -/
def CopiesBeforeFailure (alloc : Alloc) (calls n i : Nat) : Prop :=
  i ≤ n ∧ (∀ j < i, alloc (calls + j) = true) ∧ (i < n → alloc (calls + i) = false)

/-- When a failing put of `key` goes unnoticed. With room in the table: the
slot it picks is not a deleted one that some stored key is found behind. In a
full table: there is no new table, or every key is found among the slots whose
copies were made, with the value its lookup gives. -/
structure Unnoticed (alloc : Alloc) (calls : Nat) (m : Map .string) (key : CString) : Prop where
  room : m.size < m.tableSize → ∀ d, m.FirstVacant key d →
    (m.probed (hashOf (t := .string) key) d).inUse = .deleted →
    ∀ k e, m.FoundAt k e → ∀ f < e, m.index (hashOf k) f ≠ m.index (hashOf (t := .string) key) d
  full : m.size = m.tableSize → alloc calls = true →
    ∀ i, CopiesBeforeFailure alloc (calls + 1) m.tableSize i →
    ∀ k, firstOf (m.data.take i) k = m.lookup k

theorem firstVacant_unique {m : Map t} (hd : m.FirstVacant key d) (he : m.FirstVacant key e) :
    d = e :=
  Nat.le_antisymm (Nat.not_lt.1 fun h => he.vacant (hd.before e h))
    (Nat.not_lt.1 fun h => hd.vacant (he.before d h))

theorem copiesBeforeFailure_unique
    (hi : CopiesBeforeFailure alloc calls n i) (hj : CopiesBeforeFailure alloc calls n j) :
    i = j := by
  rcases Nat.lt_trichotomy i j with h | h | h
  · have := hi.2.2 (by have := hj.1; omega)
    rw [hj.2.1 i h] at this
    cases this
  · exact h
  · have := hj.2.2 (by have := hi.1; omega)
    rw [hi.2.1 j h] at this
    cases this

theorem lookup_of_rejected {m : Map t} (wf : m.WellFormed)
    (h : key.arg.key? ≠ some key) : m.lookup key = none := by
  rw [lookup_eq_none wf]
  rintro ⟨d, hf⟩
  obtain ⟨stored, hs, valid, -⟩ := keyed_slot wf (index_lt wf (hashOf key) d) hf.has.1
  have : stored = key := some.inj (hs.symm.trans hf.has.2)
  exact h (this ▸ valid)

theorem get_eq_iff_lookup_eq {m m' : Map t} (wf : m.WellFormed) (wf' : m'.WellFormed) :
    (∀ arg, swHashmapGet m' arg = swHashmapGet m arg) ↔ ∀ key, m'.lookup key = m.lookup key := by
  constructor
  · intro h key
    by_cases valid : key.arg.key? = some key
    · have hget := h key.arg
      simp only [swHashmapGet_eq wf, swHashmapGet_eq wf', valid] at hget
      cases hl : m.lookup key <;> cases hl' : m'.lookup key <;> simp_all
    · rw [lookup_of_rejected wf valid, lookup_of_rejected wf' valid]
  · intro h arg
    rw [swHashmapGet_eq wf, swHashmapGet_eq wf']
    cases arg.key? with
    | none => rfl
    | some key => simp [h]

theorem PutStep.unchanged_iff (wf : m.WellFormed) (h : PutStep alloc calls m key value .omem m') :
    (∀ k, m'.lookup k = m.lookup k) ↔ Unnoticed alloc calls m key := by
  cases h with
  | @refused _ d room copy ref =>
    have hfirst : m.FirstVacant (t := .string) key d := ⟨ref.lt, ref.vacant, ref.before⟩
    have hfull : ¬m.size = m.tableSize := by omega
    by_cases hdel : (m.probed (hashOf (t := .string) key) d).inUse = .deleted
    · rw [refused_lookup_iff wf ref]
      constructor
      · intro h
        exact ⟨fun _ d' hd' _ => firstVacant_unique hfirst hd' ▸ h, fun hf => absurd hf hfull⟩
      · intro h
        exact h.room room d hfirst hdel
    · have hidle : (m.probed (hashOf (t := .string) key) d).inUse = .idle := by
        have hv := ref.vacant
        cases hu : (m.probed (hashOf (t := .string) key) d).inUse with
        | idle => rfl
        | used => exact absurd hu hv
        | deleted => exact absurd hu hdel
      refine iff_of_true (refused_lookup wf ref hidle) ⟨fun _ d' hd' hdel' => ?_,
        fun hf => absurd hf hfull⟩
      rw [← firstVacant_unique hfirst hd', hidle] at hdel'
      cases hdel'
  | noTable full table =>
    refine iff_of_true (fun _ => rfl) ⟨fun room => by omega, fun _ h => ?_⟩
    rw [table] at h
    cases h
  | @halfway _ i full table lt made copy re =>
    have hi : CopiesBeforeFailure alloc (calls + 1) m.tableSize i :=
      ⟨by omega, fun j hj => by simpa [copied, copyCost] using made j hj,
        fun _ => by simpa [copied, copyCost] using copy⟩
    constructor
    · intro h
      refine ⟨fun room => by omega, fun _ _ j hj k => ?_⟩
      rw [copiesBeforeFailure_unique hj hi, ← re.lookup, h]
    · intro h k
      rw [re.lookup, h.full full table i hi k]
  | grownRefused full table made copy re ref =>
    have hi : CopiesBeforeFailure alloc (calls + 1) m.tableSize m.tableSize :=
      ⟨le_refl _, fun j hj => by simpa [copied, copyCost] using made j hj, fun h => by omega⟩
    have hl := refused_lookup re.fresh.wf ref (refused_idle ref re.fresh)
    constructor
    · intro h
      refine ⟨fun room => by omega, fun _ _ j hj k => ?_⟩
      rw [copiesBeforeFailure_unique hj hi, ← re.lookup, ← hl, h]
    · intro h k
      rw [hl, re.lookup, h.full full table _ hi k]

/-- A put that returns `MAP_OMEM`, in any state reached whatever failed before,
leaves every lookup as it was exactly when the failure goes unnoticed. -/
theorem run_omem_unchanged_iff {alloc : Alloc} {size : Int} (hsize : 1 ≤ size)
    (hbytes : size < 2^28) {w w₀ : Heap} {m₀ : Map .string}
    (hcreate : swHashmapCreate alloc .string size w = (some m₀, w₀))
    {history : List (Op .string × Status)} {s s' : Map .string × Heap}
    (run : Run (step alloc) Fits (m₀, w₀) history s) {key : CString} {value : Value}
    (fits : s.1.Roomy) (omem : swHashmapPut alloc s.1 (some key) value s.2 = some (.omem, s')) :
    (∀ arg, swHashmapGet s'.1 arg = swHashmapGet s.1 arg) ↔ Unnoticed alloc s.2.calls s.1 key := by
  have wf := run_wellFormed (by omega) hbytes hcreate run
  by_cases hempty : key.bytes = []
  · -- the empty key is rejected before anything is allocated
    simp [swHashmapPut, Arg.key?, hempty] at omem
  · have harg : Arg.key? (t := .string) (some key) = some key := by simp [Arg.key?, hempty]
    obtain ⟨status, m', w', hput, hstep⟩ := swHashmapPut_step alloc wf fits harg value s.2
    cases some.inj (hput.symm.trans omem)
    have wf' := hstep.wellFormed wf (Arg.arg_of_key? harg)
    rw [get_eq_iff_lookup_eq wf wf']
    exact hstep.unchanged_iff wf

def keyA : CString := ⟨[97], by decide⟩

def keyB : CString := ⟨[98], by decide⟩

/-- A full table of one slot, and no memory for a new table: attempt 4. -/
theorem run_omem_unchanged_noTable : ∃ (history : List (Op .string × Status))
    (s s' : Map .string × Heap),
      exec (step fun n => n ≠ 4) Fits (⟨1, 0, [Slot.zero], 1⟩, ⟨3, []⟩) [.put (some keyA) 10] =
        some (history, s) ∧ swHashmapPut (fun n => n ≠ 4) s.1 (some keyB) 20 s.2 =
      some (.omem, s') ∧ ∀ arg, swHashmapGet s'.1 arg = swHashmapGet s.1 arg := by
  simp only [exists_and_left]
  refine exists_exec (fun _ s => s.1.size = 1 ∧ s.1.tableSize = 1 ∧ s.2.calls = 4 ∧
    ∃ s', swHashmapPut (fun n => n ≠ 4) s.1 (some keyB) 20 s.2 = some (.omem, s') ∧ True)
      (by decide +kernel) ?_
  rintro history s he ⟨hsize, htable, hcalls, s', hput, -⟩
  have hcreate : swHashmapCreate (fun n => n ≠ 4) .string 1 ⟨0, []⟩ =
      (some ⟨1, 0, [Slot.zero], 1⟩, ⟨3, []⟩) := rfl
  have fits : s.1.Roomy := fun _ => by rw [htable]; decide
  refine ⟨s', hput, (run_omem_unchanged_iff (by decide) (by decide) hcreate
    (.of_exec he) fits hput).2 ⟨fun h => by omega, fun _ h => ?_⟩⟩
  simp [hcalls] at h

/-- The new table can be had, but not the first key copy into it: attempt 5.
Key `"a"` is gone afterwards. -/
theorem omem_loses_key : ∃ (history : List (Op .string × Status)) (s s' : Map .string × Heap),
      swHashmapCreate (fun n => n ≠ 5) .string 1 ⟨0, []⟩ = (some ⟨1, 0, [Slot.zero], 1⟩, ⟨3, []⟩) ∧
      exec (step fun n => n ≠ 5) Fits (⟨1, 0, [Slot.zero], 1⟩, ⟨3, []⟩) [.put (some keyA) 10] =
        some (history, s) ∧ swHashmapPut (fun n => n ≠ 5) s.1 (some keyB) 20 s.2 =
      some (.omem, s') ∧ swHashmapGet s.1 (some keyA) = some (.ok, some 10) ∧
      swHashmapGet s'.1 (some keyA) = some (.missing, some 0) := by
  simp only [exists_and_left]
  exact ⟨rfl, by decide +kernel⟩

end SwApi.HashMap
