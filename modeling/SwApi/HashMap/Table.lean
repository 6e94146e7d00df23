import SwApi.HashMap.Model

/-! The shape every table keeps, and what the three probe loops compute on it. A slot is addressed
by its distance from the home slot of a key. -/
namespace SwApi.HashMap
open Library CyclicProbe List Option

def Key.arg : {t : KeyType} → Key t → Arg t
  | .digital, key => key
  | .string, key => some key

def Slot.has (s : Slot t) (key : Key t) : Prop := s.inUse = .used ∧ s.key.key? = some key
  deriving Decidable

def Slot.Keyed (s : Slot t) : Prop :=
  s.inUse = .used → ∃ key, s.key.key? = some key ∧ key.arg.key? = some key ∧ s.hash = hashOf key

structure Map.WellFormed (m : Map t) : Prop where
  sized : 0 < m.tableSize
  length : m.data.length = m.tableSize
  count : m.size = m.data.countP (·.inUse = .used)
  keyed : ∀ s ∈ m.data, s.Keyed

def Map.slot (m : Map t) (i : Nat) : Slot t := m.data.getD i Slot.zero

def Map.index (m : Map t) (hash : UInt32) (d : Nat) : Nat :=
  pos m.tableSize (hash.toNat % m.tableSize) d

def Map.probed (m : Map t) (hash : UInt32) (d : Nat) : Slot t := m.slot (m.index hash d)

/-- Probing for `key` meets its first slot after `d` steps. -/
@[mk_iff]
structure Map.FoundAt (m : Map t) (key : Key t) (d : Nat) : Prop where
  lt : d < m.tableSize
  has : (m.probed (hashOf key) d).has key
  passed : ∀ e < d, (m.probed (hashOf key) e).inUse ≠ .idle ∧ ¬(m.probed (hashOf key) e).has key

def Map.lookup (m : Map t) (key : Key t) : Option Value :=
  match probe m.tableSize ((hashOf key).toNat % m.tableSize) (getVisit m (hashOf key) key) with
  | some (some (.ok, value)) => some value
  | _ => none

theorem Arg.arg_of_key? {arg : Arg t} (h : arg.key? = some key) : key.arg.key? = some key := by
  cases t with
  | digital => rfl
  | string =>
    cases arg with
    | none => simp [Arg.key?] at h
    | some text =>
      by_cases he : text.bytes = []
      · simp [Arg.key?, he] at h
      · have : text = key := by simpa [Arg.key?, he] using h
        simp [Key.arg, Arg.key?, ← this, he]

section
variable {m : Map t} (wf : m.WellFormed)
include wf

theorem home_lt (hash : UInt32) : hash.toNat % m.tableSize < m.tableSize :=
  Nat.mod_lt _ wf.sized

theorem index_lt (hash : UInt32) (d : Nat) : m.index hash d < m.tableSize :=
  pos_lt wf.sized _ _

theorem data_getElem? (hi : i < m.tableSize) : m.data[i]? = some (m.slot i) := by
  have hl : i < m.data.length := by rw [wf.length]; exact hi
  simp [Map.slot, getElem?_eq_getElem hl]

theorem slot_mem (hi : i < m.tableSize) : m.slot i ∈ m.data :=
  mem_of_getElem? (data_getElem? wf hi)

theorem keyed_slot (hi : i < m.tableSize) : (m.slot i).Keyed :=
  wf.keyed _ (slot_mem wf hi)

omit wf in
theorem index_inj {hash : UInt32} (hd : d < m.tableSize) (he : e < m.tableSize)
    (h : m.index hash d = m.index hash e) : d = e := pos_inj hd he h

theorem exists_index (hash : UInt32) (hi : i < m.tableSize) : ∃ d < m.tableSize,
    m.index hash d = i :=
  ⟨_, dist_lt wf.sized _ _, pos_dist (home_lt wf hash) hi⟩

theorem probed_getElem? (hash : UInt32) (d : Nat) :
    m.data[m.index hash d]? = some (m.probed hash d) := data_getElem? wf (index_lt wf hash d)

theorem holds_iff (hi : i < m.tableSize) (key : Key t) (hu : (m.slot i).inUse = .used) :
    (m.slot i).holds (hashOf key) key = true ↔ (m.slot i).has key := by
  obtain ⟨stored, hs, -, hh⟩ := keyed_slot wf hi hu
  simp only [Slot.holds, Slot.has, hs, hh, hu, Bool.and_eq_true, beq_iff_eq, some.injEq,
    true_and]
  exact ⟨fun h => h.2, fun h => ⟨by rw [h], h⟩⟩

theorem getVisit_eq (key : Key t) (d : Nat) : getVisit m (hashOf key) key (m.index (hashOf key) d) =
    some (if (m.probed (hashOf key) d).has key then some (.ok, (m.probed (hashOf key) d).value)
      else if (m.probed (hashOf key) d).inUse = .idle then some (.missing, 0) else none) := by
  simp only [getVisit, probed_getElem? wf, map_some]
  cases hu : (m.probed (hashOf key) d).inUse with
  | used =>
    have hholds := holds_iff wf (index_lt wf (hashOf key) d) key hu
    simp [Map.probed, hholds]
  | idle | deleted => simp [Slot.has, hu]

theorem getVisit_ok (key : Key t) (d : Nat) (value : Value) :
    getVisit m (hashOf key) key (m.index (hashOf key) d) = some (some (.ok, value)) ↔
      (m.probed (hashOf key) d).has key ∧ (m.probed (hashOf key) d).value = value := by
  rw [getVisit_eq wf]
  split_ifs <;> simp [*]

theorem getVisit_next (key : Key t) (d : Nat) :
    getVisit m (hashOf key) key (m.index (hashOf key) d) = some none ↔
      (m.probed (hashOf key) d).inUse ≠ .idle ∧ ¬(m.probed (hashOf key) d).has key := by
  rw [getVisit_eq wf]
  split_ifs <;> simp [*]

theorem lookup_eq_some (key : Key t) (value : Value) : m.lookup key = some value ↔
      ∃ d, m.FoundAt key d ∧ (m.probed (hashOf key) d).value = value := by
  have hstop := probe_eq_stop (home_lt wf (hashOf key)) (getVisit m (hashOf key) key)
    (Status.ok, value)
  constructor
  · intro h
    have hp : probe m.tableSize ((hashOf key).toNat % m.tableSize) (getVisit m (hashOf key) key) =
        some (some (.ok, value)) := by
      unfold Map.lookup at h
      split at h
      · rename_i v hv; rw [hv, some.inj h]
      · contradiction
    obtain ⟨d, hd, hv, hpass⟩ := hstop.1 hp
    obtain ⟨hhas, hval⟩ := (getVisit_ok wf key d value).1 hv
    exact ⟨d, ⟨hd, hhas, fun e he => (getVisit_next wf key e).1 (hpass e he)⟩, hval⟩
  · rintro ⟨d, hf, hval⟩
    have hp := hstop.2 ⟨d, hf.lt, (getVisit_ok wf key d value).2 ⟨hf.has, hval⟩,
      fun e he => (getVisit_next wf key e).2 (hf.passed e he)⟩
    simp [Map.lookup, hp]

theorem lookup_eq_none (key : Key t) : m.lookup key = none ↔ ¬∃ d, m.FoundAt key d := by
  constructor
  · rintro h ⟨d, hf⟩
    have := (lookup_eq_some wf key _).2 ⟨d, hf, rfl⟩
    rw [h] at this
    contradiction
  · intro h
    cases hl : m.lookup key with
    | none => rfl
    | some value =>
      obtain ⟨d, hf, -⟩ := (lookup_eq_some wf key value).1 hl
      exact absurd ⟨d, hf⟩ h

theorem swHashmapGet_eq (arg : Arg t) :
    swHashmapGet m arg = some (match arg.key? with
      | none => (.missing, none)
      | some key =>
          match m.lookup key with
          | some value => (.ok, some value)
          | none => (.missing, some 0)) := by
  unfold swHashmapGet
  cases arg.key? with
  | none => rfl
  | some key =>
    have hpos : m.tableSize ≠ 0 := Nat.ne_of_gt wf.sized
    rcases probe_defined (home_lt wf (hashOf key)) (getVisit m (hashOf key) key)
      (fun i hi => by simp [getVisit, data_getElem? wf hi]) with ⟨⟨status, value⟩, hp⟩ | hp
    · obtain ⟨d, hd, hv, -⟩ := (probe_eq_stop (home_lt wf (hashOf key)) _ _).1 hp
      have hstop := (getVisit_eq wf key d).symm.trans hv
      split_ifs at hstop <;> cases hstop <;> simp [hpos, Map.lookup, hp]
    · simp [hpos, Map.lookup, hp]

theorem swHashmapGet_found (harg : arg.key? = some key)
    (hl : m.lookup key = some value) : swHashmapGet m arg = some (.ok, some value) := by
  simp only [swHashmapGet_eq wf, harg, hl]

theorem exists_not_used (h : m.size < m.tableSize) : ∃ i < m.tableSize,
    (m.slot i).inUse ≠ .used := by
  by_contra hall
  push Not at hall
  have hc : m.data.countP (·.inUse = .used) = m.data.length := by
    rw [countP_eq_length]
    intro s hs
    obtain ⟨i, hi, rfl⟩ := mem_iff_getElem.1 hs
    have hi' : i < m.tableSize := by rw [← wf.length]; exact hi
    have := hall i hi'
    simpa [Map.slot, getElem?_eq_getElem hi] using this
  rw [← wf.count, wf.length] at hc
  omega

theorem size_le : m.size ≤ m.tableSize := by
  rw [wf.count, ← wf.length]
  exact countP_le_length

theorem used_of_full (h : m.size = m.tableSize) (hi : i < m.tableSize) :
    (m.slot i).inUse = .used := by
  have hc : m.data.countP (·.inUse = .used) = m.data.length := by
    rw [← wf.count, wf.length, h]
  rw [countP_eq_length] at hc
  simpa using hc _ (slot_mem wf hi)

theorem emptyVisit_eq (hash : UInt32) (d : Nat) : emptyVisit m (m.index hash d) =
      some (if (m.probed hash d).inUse ≠ .used then some (m.index hash d) else none) := by
  simp [emptyVisit, probed_getElem? wf]

theorem swHashmapFindEmpty_eq (hash : UInt32) (h : m.size < m.tableSize) :
    ∃ d < m.tableSize, swHashmapFindEmpty m hash = some (some (m.index hash d)) ∧
      (m.probed hash d).inUse ≠ .used ∧ ∀ e < d, (m.probed hash e).inUse = .used := by
  have hne : ¬m.size = m.tableSize := by omega
  have hpos : m.tableSize ≠ 0 := by omega
  obtain ⟨i, hi, hiu⟩ := exists_not_used wf h
  obtain ⟨d₀, hd₀, rfl⟩ := exists_index wf hash hi
  rcases probe_defined (home_lt wf hash) (emptyVisit m)
      (fun i hi => by simp [emptyVisit, data_getElem? wf hi]) with ⟨b, hp⟩ | hp
  · obtain ⟨d, hd, hstop, hpass⟩ := (probe_eq_stop (home_lt wf hash) _ _).1 hp
    have hstop' := (emptyVisit_eq wf hash d).symm.trans hstop
    have hu : (m.probed hash d).inUse ≠ .used := by
      intro hu; simp [hu] at hstop'
    have hb : m.index hash d = b := by simpa [hu] using hstop'
    refine ⟨d, hd, ?_, hu, fun e he => ?_⟩
    · simp [swHashmapFindEmpty, hne, hpos, hp, hb]
    · have hnext := (emptyVisit_eq wf hash e).symm.trans (hpass e he)
      by_contra hne
      simp [hne] at hnext
  · have hall := (probe_eq_next (home_lt wf hash) _).1 hp d₀ hd₀
    have hnext := (emptyVisit_eq wf hash d₀).symm.trans hall
    have hused : (m.probed hash d₀).inUse = .used := by simpa using hnext
    exact absurd hused hiu

omit wf in
theorem swHashmapFindEmpty_full (hash : UInt32) (h : m.size = m.tableSize) :
    swHashmapFindEmpty m hash = some none := by
  simp [swHashmapFindEmpty, h]

end

/-- Two tables in which `k` is found in the same slot with the same value are looked up alike. -/
theorem lookup_congr {m m' : Map t} (wf : m.WellFormed) (wf' : m'.WellFormed)
    (hfound : ∀ e, m'.FoundAt k e ↔ m.FoundAt k e)
    (hval : ∀ e, m.FoundAt k e → (m'.probed (hashOf k) e).value = (m.probed (hashOf k) e).value) :
    m'.lookup k = m.lookup k := by
  cases hl : m.lookup k with
  | none =>
    rw [lookup_eq_none wf']
    rintro ⟨e, he⟩
    exact (lookup_eq_none wf k).1 hl ⟨e, (hfound e).1 he⟩
  | some v =>
    obtain ⟨e, he, hv⟩ := (lookup_eq_some wf k v).1 hl
    exact (lookup_eq_some wf' k v).2 ⟨e, (hfound e).2 he, by rw [hval e he, hv]⟩

end SwApi.HashMap
