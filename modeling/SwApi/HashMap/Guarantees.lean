import SwApi.HashMap.Runs

/-! What users of the map can rely on in every state a run can reach, while no
allocation fails. -/
namespace SwApi.HashMap
open Library CyclicProbe Option

/-- `j` lies on the cyclic path from the home slot of `hash` up to slot `i`. -/
def Map.OnPath (m : Map t) (hash : UInt32) (i j : Nat) : Prop :=
  dist m.tableSize (hash.toNat % m.tableSize) j ≤ dist m.tableSize (hash.toNat % m.tableSize) i

structure Map.ProbeInvariant (m : Map t) : Prop where
  slots : m.data.length = m.tableSize
  size : m.size = m.data.countP (·.inUse = .used)
  size_le : m.size ≤ m.tableSize
  path : ∀ i < m.tableSize, (m.slot i).inUse = .used →
    ∀ j < m.tableSize, m.OnPath (m.slot i).hash i j → (m.slot j).inUse ≠ .idle
  stored : ∀ i < m.tableSize, (m.slot i).inUse = .used →
    ∃ key value, (m.slot i).key.key? = some key ∧
      swHashmapGet m key.arg = some (.ok, some value)

theorem probeInvariant_of_chained {m : Map t} (wf : m.WellFormed) (chained : m.Chained) :
    m.ProbeInvariant where
  slots := wf.length
  size := wf.count
  size_le := size_le wf
  path := by
    intro i hi hu j hj hpath
    let home := (m.slot i).hash.toNat % m.tableSize
    have hhome : home < m.tableSize := home_lt wf _
    have hprobed {k} (hk : k < m.tableSize) :
      m.probed (m.slot i).hash (dist m.tableSize home k) = m.slot k := by
      unfold Map.probed Map.index
      rw [pos_dist hhome hk]
    rcases Nat.eq_or_lt_of_le hpath with heq | hlt
    · have hij : j = i := by rw [← pos_dist hhome hj, ← pos_dist hhome hi, heq]
      rw [hij, hu]
      simp
    · have := chained (m.slot i).hash _ (dist_lt wf.sized _ _) (by rw [hprobed hi]; exact hu)
        (by rw [hprobed hi]) _ hlt
      rwa [hprobed hj] at this
  stored := by
    intro i hi hu
    obtain ⟨key, hkey, valid, -⟩ := keyed_slot wf hi hu
    obtain ⟨d, hf⟩ := exists_foundAt wf chained hi ⟨hu, hkey⟩
    exact ⟨key, _, hkey, swHashmapGet_found wf valid ((lookup_eq_some wf key _).2 ⟨d, hf, rfl⟩)⟩

/-- In every state reached from `sw_hashmap_create` while no allocation fails
and no byte count of a table leaves 32 bits, the chains are intact, and the
next call comes back. -/
theorem run_probeInvariant {alloc : Alloc} (all : ∀ n, alloc n = true) {size : Int}
    (hsize : 1 ≤ size) (hbytes : size < 2^28) {w w₀ : Heap} {m₀ : Map t}
    (hcreate : swHashmapCreate alloc t size w = (some m₀, w₀))
    {history : List (Op t × Status)} {s : Map t × Heap}
    (run : Run (step alloc) Fits (m₀, w₀) history s) :
    s.1.ProbeInvariant ∧ ∀ op, Fits s op → ∃ status s', step alloc s op = some (status, s') := by
  obtain ⟨wf, chained⟩ := run_chained all (by omega) hbytes hcreate run
  refine ⟨probeInvariant_of_chained wf chained, fun op fits => ?_⟩
  obtain ⟨status, s', h, -⟩ := exists_stepped alloc wf fits
  exact ⟨status, s', h⟩

/-- The run `put 1; put 2` on a table of one slot, which doubles it. -/
theorem run_probeInvariant_doubling : ∃ (history : List (Op .digital × Status))
    (s : Map .digital × Heap),
      swHashmapCreate (fun _ => true) .digital 1 ⟨0, []⟩ = (some ⟨1, 0, [Slot.zero], 1⟩, ⟨3, []⟩) ∧
      exec (step fun _ => true) Fits (⟨1, 0, [Slot.zero], 1⟩, ⟨3, []⟩)
        [.put (1 : UInt32) 10, .put (2 : UInt32) 20] = some (history, s) ∧ s.1.ProbeInvariant := by
  refine exists_exec_and (fun _ _ => True) (by decide +kernel) rfl ?_
  intro history s hcreate he _
  exact (run_probeInvariant (fun _ => rfl) (by decide) (by decide) hcreate (.of_exec he)).1

/-- With 2^28 + 1 elements the byte count wraps to 16: the map claims a table
of which one slot exists, and the first put writes behind it. -/
theorem create_wraps : ∃ (m₀ : Map .digital) (w₀ : Heap),
      swHashmapCreate (fun _ => true) .digital (2^28 + 1) ⟨0, []⟩ = (some m₀, w₀) ∧
      ¬m₀.ProbeInvariant ∧ step (fun _ => true) (m₀, w₀) (.put 1 10) = none := by
  refine ⟨_, _, rfl, fun h => ?_, by decide +kernel⟩
  exact absurd h.slots (by decide +kernel)

/-- In every state reached from a table that is not empty, while no byte count of a table leaves
32 bits, the table has a slot and as many as `table_size` says, and the next call comes back. -/
theorem run_returns {size : Int} (hsize : size ≠ 0) (hbytes : size < 2^28)
    (hcreate : swHashmapCreate alloc t size w = (some m₀, w₀))
    (run : Run (step alloc) Fits (m₀, w₀) history s) : 0 < s.1.tableSize ∧
      s.1.data.length = s.1.tableSize ∧ ∀ op, Fits s op → (step alloc s op).isSome := by
  have wf := run_wellFormed hsize hbytes hcreate run
  refine ⟨wf.sized, wf.length, fun op fits => ?_⟩
  obtain ⟨status, s', h, -⟩ := exists_stepped alloc wf fits
  rw [h]
  rfl

/-- A put that doubles a table of one slot, and a lookup. -/
theorem run_returns_doubled : ∃ m₀ w₀ history s,
    swHashmapCreate (fun _ => true) .digital 1 ⟨0, []⟩ = (some m₀, w₀) ∧
    exec (step fun _ => true) Fits (m₀, w₀)
      [.put (1 : UInt32) 10, .put (2 : UInt32) 20, .get (1 : UInt32)] = some (history, s) ∧
    0 < s.1.tableSize ∧ s.1.data.length = s.1.tableSize ∧
      ∀ op, Fits s op → (step (fun _ => true) s op).isSome := by
  refine ⟨⟨1, 0, [Slot.zero], 1⟩, ⟨3, []⟩, exists_exec_and (fun _ _ => True)
    (by decide +kernel) rfl ?_⟩
  intro history s hcreate he _
  exact run_returns (by decide) (by decide) hcreate (.of_exec he)

/-- A table without slots: a lookup divides by its size, and a put doubles it without end. -/
theorem empty_table_never_answers : ∃ (m₀ : Map .digital) (w₀ : Heap),
    swHashmapCreate (fun _ => true) .digital 0 ⟨0, []⟩ = (some m₀, w₀) ∧
    step (fun _ => true) (m₀, w₀) (.get 1) = none ∧
    step (fun _ => true) (m₀, w₀) (.put 1 10) = none :=
  ⟨_, _, rfl, by decide +kernel, by decide +kernel⟩

/-- `sw_hashmap_remove` finds a key exactly when `sw_hashmap_get` does, and
removing it leaves every other key's lookup alone. -/
def RemoveAgrees (m : Map t) (w : Heap) (arg : Arg t) : Prop :=
  ((∃ s', swHashmapRemove m arg w = some (.ok, s')) ↔
    ∃ value, swHashmapGet m arg = some (.ok, value)) ∧
  ∀ m' w', swHashmapRemove m arg w = some (.ok, m', w') →
    ∀ other : Arg t, other.key? ≠ arg.key? → swHashmapGet m' other = swHashmapGet m other

/-- No deleted slot lies between the home slot of the key and the slot in
which its lookup ends. -/
def WayIsClear (m : Map t) (arg : Arg t) : Prop := ∀ key, arg.key? = some key → m.ClearWay key

theorem swHashmapGet_ok_iff (wf : m.WellFormed) (harg : arg.key? = some key) :
    (∃ value, swHashmapGet m arg = some (.ok, value)) ↔ ∃ d, m.FoundAt key d := by
  cases hl : m.lookup key with
  | none =>
    refine iff_of_false ?_ ((lookup_eq_none wf key).1 hl)
    rintro ⟨value, h⟩
    simp [swHashmapGet_eq wf, harg, hl] at h
  | some v =>
    obtain ⟨d, hf, -⟩ := (lookup_eq_some wf key v).1 hl
    exact iff_of_true ⟨_, swHashmapGet_found wf harg hl⟩ ⟨d, hf⟩

theorem removeAgrees_iff (wf : m.WellFormed) : RemoveAgrees m w arg ↔ WayIsClear m arg := by
  cases harg : arg.key? with
  | none =>
    have hrm : swHashmapRemove m arg w = some (.missing, m, w) := by simp [swHashmapRemove, harg]
    have hget : swHashmapGet m arg = some (.missing, none) := by simp [swHashmapGet, harg]
    simp [RemoveAgrees, WayIsClear, hrm, hget, harg]
  | some key =>
    have hget := swHashmapGet_ok_iff wf harg
    unfold RemoveAgrees WayIsClear
    rw [hget]
    rcases swHashmapRemove_cases wf harg w with ⟨d, hf, hclear, hrm⟩ | ⟨hno, hrm⟩
    · have hway : m.ClearWay key := fun e he => by
        rw [FoundAt.unique he hf]
        exact hclear
      refine iff_of_true ⟨iff_of_true ⟨_, hrm⟩ ⟨d, hf⟩, fun m' w' h other hother => ?_⟩
        (fun k hk => by rw [harg] at hk; cases hk; exact hway)
      cases some.inj (hrm.symm.trans h)
      rw [swHashmapGet_eq (removed_wellFormed wf hf), swHashmapGet_eq wf]
      cases hk : other.key? with
      | none => rfl
      | some k =>
        have hne : k ≠ key := fun h => hother (by rw [hk, harg, h])
        simp [removed_lookup_other wf hf hne]
    · have hmiss : ¬∃ s', swHashmapRemove m arg w = some (.ok, s') := by
        rintro ⟨s', h⟩
        rw [hrm] at h
        cases h
      constructor
      · rintro ⟨hiff, -⟩ k hk d hf
        rw [harg] at hk
        cases hk
        exact absurd (hiff.2 ⟨d, hf⟩) hmiss
      · intro hway
        have hnone : ¬∃ d, m.FoundAt key d := by
          rintro ⟨d, hf⟩
          exact hno ⟨d, hf, hway key harg d hf⟩
        refine ⟨iff_of_false hmiss hnone, fun m' w' h => ?_⟩
        exact absurd ⟨_, h⟩ hmiss

/-- In every state that can be reached, removal and lookup of a key agree
exactly when the way to the key is clear of deleted slots. -/
theorem run_removeAgrees_iff {alloc : Alloc} (all : ∀ n, alloc n = true) {size : Int}
    (hsize : 1 ≤ size) (hbytes : size < 2^28) {w w₀ : Heap} {m₀ : Map t}
    (hcreate : swHashmapCreate alloc t size w = (some m₀, w₀))
    {history : List (Op t × Status)} {s : Map t × Heap}
    (run : Run (step alloc) Fits (m₀, w₀) history s) (arg : Arg t) :
    RemoveAgrees s.1 s.2 arg ↔ WayIsClear s.1 arg :=
  removeAgrees_iff (run_chained all (by omega) hbytes hcreate run).1

/-- Keys 1 and 3 share a home slot in a table of two. While both are stored,
the way to key 3 leads over key 1 and is clear. -/
theorem run_removeAgrees_clear : ∃ (history : List (Op .digital × Status))
    (s : Map .digital × Heap),
      exec (step fun _ => true) Fits (⟨2, 0, [Slot.zero, Slot.zero], 1⟩, ⟨3, []⟩)
        [.put (1 : UInt32) 10, .put (3 : UInt32) 30] = some (history, s) ∧
      RemoveAgrees s.1 s.2 (3 : UInt32) := by
  refine exists_exec (fun _ s => ∀ slot ∈ s.1.data, slot.inUse ≠ .deleted) (by decide +kernel) ?_
  intro history s he hclear
  have hcreate : swHashmapCreate (fun _ => true) .digital 2 ⟨0, []⟩ =
      (some ⟨2, 0, [Slot.zero, Slot.zero], 1⟩, ⟨3, []⟩) := rfl
  apply (run_removeAgrees_iff (fun _ => rfl) (by decide) (by decide) hcreate (.of_exec he)
    (3 : UInt32)).2
  intro key _ d hf e hlt
  have wf := (run_chained (fun _ => rfl) (by decide) (by decide) hcreate (.of_exec he)).1
  exact hclear _ (slot_mem wf (index_lt wf (hashOf key) e))

/-- Once key 1 is removed, its deleted slot hides key 3 from a removal, though
the lookup still finds it. -/
theorem remove_misses_behind_deleted : ∃ (history : List (Op .digital × Status))
    (s : Map .digital × Heap),
      swHashmapCreate (fun _ => true) .digital 2 ⟨0, []⟩ = (some ⟨2, 0, [Slot.zero, Slot.zero], 1⟩,
      ⟨3, []⟩) ∧ exec (step fun _ => true) Fits (⟨2, 0, [Slot.zero, Slot.zero], 1⟩, ⟨3, []⟩)
        [.put (1 : UInt32) 10, .put (3 : UInt32) 30, .remove (1 : UInt32)] = some (history, s) ∧
      swHashmapGet s.1 (3 : UInt32) = some (.ok, some 30) ∧ ¬RemoveAgrees s.1 s.2 (3 : UInt32) := by
  refine exists_exec_and (fun _ s => swHashmapGet s.1 (3 : UInt32) = some (.ok, some 30) ∧
    (swHashmapRemove s.1 (3 : UInt32) s.2).map Prod.fst = some .missing) (by decide +kernel) rfl ?_
  rintro history s - he ⟨hget, hmissing⟩
  refine ⟨hget, ?_⟩
  rintro ⟨hiff, -⟩
  obtain ⟨s', hs'⟩ := hiff.2 ⟨_, hget⟩
  simp [hs'] at hmissing

end SwApi.HashMap
