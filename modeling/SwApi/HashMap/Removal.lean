import SwApi.HashMap.Rehash

/-! Removing a key. Unlike the lookup the loop breaks off at a deleted slot. -/
namespace SwApi.HashMap
open Library CyclicProbe Option

def Slot.removed (s : Slot t) : Slot t :=
  { s with inUse := .deleted, value := 0, key := StoredKey.null }

/-- Every slot before the first slot of the key is in use. -/
def Map.ClearWay (m : Map t) (key : Key t) : Prop :=
  ∀ d, m.FoundAt key d → ∀ e < d, (m.probed (hashOf key) e).inUse ≠ .deleted

section
variable {m : Map t} (wf : m.WellFormed)
include wf

theorem removeVisit_eq (key : Key t) (d : Nat) :
    removeVisit m (hashOf key) key (m.index (hashOf key) d) =
    some (if (m.probed (hashOf key) d).has key then some (some (m.index (hashOf key) d))
      else if (m.probed (hashOf key) d).inUse = .used then none else some none) := by
  simp only [removeVisit, probed_getElem? wf, map_some]
  cases hu : (m.probed (hashOf key) d).inUse with
  | used =>
    have hholds := holds_iff wf (index_lt wf (hashOf key) d) key hu
    simp [Map.probed, hholds]
  | idle | deleted => simp [Slot.has, hu]

theorem removeVisit_found (key : Key t) (d i : Nat) :
    removeVisit m (hashOf key) key (m.index (hashOf key) d) = some (some (some i)) ↔
      (m.probed (hashOf key) d).has key ∧ m.index (hashOf key) d = i := by
  rw [removeVisit_eq wf]
  split_ifs <;> simp [*]

theorem removeVisit_next (key : Key t) (d : Nat) :
    removeVisit m (hashOf key) key (m.index (hashOf key) d) = some none ↔
      (m.probed (hashOf key) d).inUse = .used ∧ ¬(m.probed (hashOf key) d).has key := by
  rw [removeVisit_eq wf]
  split_ifs <;> simp [*]

theorem swHashmapRemove_cases (harg : arg.key? = some key) (w : Heap) :
    (∃ d, m.FoundAt key d ∧ (∀ e < d, (m.probed (hashOf key) e).inUse ≠ .deleted) ∧
      swHashmapRemove m arg w = some (.ok,
        m.write (m.index (hashOf key) d) (m.probed (hashOf key) d).removed (m.size - 1),
        w.freeValue t (m.probed (hashOf key) d).value)) ∨
    ((¬∃ d, m.FoundAt key d ∧ ∀ e < d, (m.probed (hashOf key) e).inUse ≠ .deleted) ∧
      swHashmapRemove m arg w = some (.missing, m, w)) := by
  have hpos : m.tableSize ≠ 0 := Nat.ne_of_gt wf.sized
  have hnone : (¬∃ i, probe m.tableSize ((hashOf key).toNat % m.tableSize)
      (removeVisit m (hashOf key) key) = some (some (some i))) →
      ¬∃ d, m.FoundAt key d ∧ ∀ e < d, (m.probed (hashOf key) e).inUse ≠ .deleted := by
    rintro h ⟨d, hf, hclear⟩
    refine h ⟨m.index (hashOf key) d, (probe_eq_stop (home_lt wf _) _ _).2 ⟨d, hf.lt, ?_, ?_⟩⟩
    · exact (removeVisit_found wf key d _).2 ⟨hf.has, rfl⟩
    · intro e he
      refine (removeVisit_next wf key e).2 ⟨?_, (hf.passed e he).2⟩
      have h1 := (hf.passed e he).1
      have h2 := hclear e he
      cases hu : (m.probed (hashOf key) e).inUse with
      | used => rfl
      | idle => exact absurd hu h1
      | deleted => exact absurd hu h2
  rcases probe_defined (home_lt wf (hashOf key)) (removeVisit m (hashOf key) key)
      (fun i hi => by simp [removeVisit, data_getElem? wf hi]) with ⟨r, hp⟩ | hp
  · cases r with
    | none => exact .inr ⟨hnone (by rintro ⟨i, hi⟩; rw [hp] at hi; cases hi),
        by simp [swHashmapRemove, harg, hpos, hp]⟩
    | some i =>
      obtain ⟨d, hd, hstop, hpass⟩ := (probe_eq_stop (home_lt wf _) _ _).1 hp
      obtain ⟨hhas, rfl⟩ := (removeVisit_found wf key d i).1 hstop
      have hbefore := fun e he => (removeVisit_next wf key e).1 (hpass e he)
      refine .inl ⟨d, ⟨hd, hhas, fun e he => ⟨?_, (hbefore e he).2⟩⟩, fun e he => ?_, ?_⟩
      · rw [(hbefore e he).1]; simp
      · rw [(hbefore e he).1]; simp
      · simp [swHashmapRemove, harg, hpos, hp, probed_getElem? wf, Map.write, Slot.removed]
  · exact .inr ⟨hnone (by rintro ⟨i, hi⟩; rw [hp] at hi; cases hi),
      by simp [swHashmapRemove, harg, hpos, hp]⟩

end

section
variable {m : Map t} (wf : m.WellFormed) (hf : m.FoundAt key d)
include wf hf

abbrev removedMap (m : Map t) (key : Key t) (d : Nat) : Map t :=
  m.write (m.index (hashOf key) d) (m.probed (hashOf key) d).removed (m.size - 1)

theorem removed_wellFormed : (removedMap m key d).WellFormed := by
  have hu : (m.slot (m.index (hashOf key) d)).inUse = .used := hf.has.1
  exact wellFormed_write wf (index_lt wf _ _) (fun h => by cases h) (by simp [hu, Slot.removed])

theorem removed_not_idle (hash : UInt32) (e : Nat) :
    ((removedMap m key d).probed hash e).inUse ≠ .idle ↔ (m.probed hash e).inUse ≠ .idle := by
  rw [probed_write wf (index_lt wf _ _)]
  split
  · rename_i h
    have hu : (m.probed hash e).inUse = .used := by
      unfold Map.probed
      rw [h]
      exact hf.has.1
    simp [Slot.removed, hu]
  · rfl

theorem removed_chained (chained : m.Chained) : (removedMap m key d).Chained := by
  intro hash e he hu hh f hlt
  rw [removed_not_idle wf hf]
  rw [probed_write wf (index_lt wf _ _)] at hu hh
  split at hu
  · cases hu
  · rename_i hne
    rw [if_neg hne] at hh
    exact chained hash e he hu hh f hlt

theorem removed_copies (k : Key t) : (removedMap m key d).copies k = m.copies k - if k = key then 1
    else 0 := by
  have hiff := has_iff_of_keyed hf.has.1 hf.has.2 k
  have hgone : ¬(m.probed (hashOf key) d).removed.has k := fun h => by cases h.1
  rw [copies_write wf (index_lt wf _ _), if_neg hgone]
  change m.copies k - (if (m.probed (hashOf key) d).has k then 1 else 0) + 0 = _
  simp [hiff]

theorem removed_lookup_other (hk : k ≠ key) : (removedMap m key d).lookup k = m.lookup k := by
  have hslot : ∀ e, m.index (hashOf k) e = m.index (hashOf key) d →
    ¬(m.probed (hashOf k) e).has k := by
    intro e h hhas
    have hp : m.probed (hashOf k) e = m.probed (hashOf key) d := by unfold Map.probed; rw [h]
    exact hk ((has_iff_of_keyed hf.has.1 hf.has.2 k).1 (hp ▸ hhas))
  have hhas : ∀ e, ((removedMap m key d).probed (hashOf k) e).has k ↔
    (m.probed (hashOf k) e).has k := by
    intro e
    rw [probed_write wf (index_lt wf _ _)]
    split
    · rename_i h
      exact iff_of_false (fun hr => by cases hr.1) (hslot e h)
    · rfl
  refine lookup_congr wf (removed_wellFormed wf hf) (fun e => ?_) fun e he => ?_
  · simp only [Map.foundAt_iff, hhas, removed_not_idle wf hf]
    rfl
  · rw [probed_write wf (index_lt wf _ _), if_neg fun h => hslot e h he.has]

end

end SwApi.HashMap
