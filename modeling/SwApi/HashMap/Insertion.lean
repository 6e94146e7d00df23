import SwApi.HashMap.Table

/-! Filling one slot: what it does to the shape of the table, to the probe
chains and to the lookup of every key. -/
namespace SwApi.HashMap
open Library CyclicProbe List

variable {m : Map t}

/-- The chain of an element: from the home slot of its hash up to its own slot
no slot is idle, so a lookup cannot stop before it. -/
def Map.Chained (m : Map t) : Prop :=
  ∀ hash d, d < m.tableSize → (m.probed hash d).inUse = .used → (m.probed hash d).hash = hash →
    ∀ e < d, (m.probed hash e).inUse ≠ .idle

def Map.NoDeleted (m : Map t) : Prop := ∀ i < m.tableSize, (m.slot i).inUse ≠ .deleted

/-- How many slots are in use for `key`; the code does not keep this below two. -/
def Map.copies (m : Map t) (key : Key t) : Nat := m.data.countP fun s => decide (s.has key)

def Map.write (m : Map t) (i : Nat) (s : Slot t) (size : Nat) : Map t :=
  { m with data := m.data.set i s, size := size }

@[simp] theorem Map.write_size (m : Map t) (i : Nat) (s : Slot t) (size : Nat) :
    (m.write i s size).size = size := rfl

section
variable {m : Map t} (wf : m.WellFormed) (hi : i < m.tableSize)
include wf hi

theorem slot_write (s : Slot t) (size j : Nat) : (m.write i s size).slot j = if j = i then s
    else m.slot j := by
  have hl : i < m.data.length := by rw [wf.length]; exact hi
  by_cases hj : j = i
  · subst hj
    simp [Map.write, Map.slot, hl]
  · simp [Map.write, Map.slot, getD_eq_getElem?_getD, getElem?_set_ne (Ne.symm hj), hj]

theorem probed_write (s : Slot t) (size : Nat) (hash : UInt32) (d : Nat) :
    (m.write i s size).probed hash d = if m.index hash d = i then s else m.probed hash d :=
  slot_write wf hi s size _

theorem countP_write (p : Slot t → Bool) (s : Slot t) (size : Nat) :
    (m.write i s size).data.countP p =
      m.data.countP p - (if p (m.slot i) then 1 else 0) + if p s then 1 else 0 := by
  have hl : i < m.data.length := by rw [wf.length]; exact hi
  have hs : m.data[i] = m.slot i := by simp [Map.slot, getElem?_eq_getElem hl]
  simp only [Map.write, countP_set hl, hs]

theorem wellFormed_write (hk : s.Keyed)
    (hsize : size = m.size - (if (m.slot i).inUse = .used then 1 else 0) +
      if s.inUse = .used then 1 else 0) : (m.write i s size).WellFormed where
  sized := wf.sized
  length := by simp [Map.write, wf.length]
  count := by
    rw [countP_write wf hi, ← wf.count, Map.write_size, hsize]
    simp
  keyed := by
    intro x hx
    rcases mem_or_eq_of_mem_set hx with h | rfl
    · exact wf.keyed x h
    · exact hk

theorem copies_write (key : Key t) (s : Slot t) (size : Nat) : (m.write i s size).copies key =
      m.copies key - (if (m.slot i).has key then 1 else 0) + if s.has key then 1 else 0 := by
  unfold Map.copies
  rw [countP_write wf hi]
  simp

end

def copied (alloc : Alloc) : KeyType → Nat → Bool
  | .digital, _ => true
  | .string, calls => alloc calls

def copyCost : KeyType → Nat
  | .digital => 0
  | .string => 1

theorem copyKey_of_copied {key : Key t} (h : copied alloc t w.calls = true) :
    ∃ stored w', copyKey alloc key w = (some stored, w') ∧ stored.key? = some key ∧
      w'.calls = w.calls + copyCost t := by
  cases t with
  | digital => exact ⟨key, w, rfl, rfl, rfl⟩
  | string =>
    have ha : alloc w.calls = true := h
    exact ⟨some ⟨w.calls, key⟩, { w with calls := w.calls + 1 },
      by simp [copyKey, Heap.malloc, ha], rfl, rfl⟩

theorem copyKey_of_not_copied (key : Key t) (h : copied alloc t w.calls = false) :
    ∃ w', copyKey alloc key w = (none, w') ∧ w'.calls = w.calls + copyCost t := by
  cases t with
  | digital => simp [copied] at h
  | string =>
    have ha : alloc w.calls = false := h
    exact ⟨{ w with calls := w.calls + 1 }, by simp [copyKey, Heap.malloc, ha], rfl⟩

/-- `m'` is `m` with `key` put into the first slot on its way that is not in
use, `d` steps from its home. -/
structure Inserted (m m' : Map t) (key : Key t) (value : Value) (d : Nat) (stored : StoredKey t) :
    Prop where
  lt : d < m.tableSize
  vacant : (m.probed (hashOf key) d).inUse ≠ .used
  before : ∀ e < d, (m.probed (hashOf key) e).inUse = .used
  stores : stored.key? = some key
  eq : m' = m.write (m.index (hashOf key) d) ⟨stored, .used, hashOf key, value⟩ (m.size + 1)

structure Refused (m m' : Map t) (key : Key t) (value : Value) (d : Nat) : Prop where
  lt : d < m.tableSize
  vacant : (m.probed (hashOf key) d).inUse ≠ .used
  before : ∀ e < d, (m.probed (hashOf key) e).inUse = .used
  eq : m' = m.write (m.index (hashOf key) d)
    { m.probed (hashOf key) d with value := value, key := StoredKey.null, inUse := .idle } m.size

theorem hashmapPut_ok (wf : m.WellFormed) (room : m.size < m.tableSize)
    (hc : copied alloc t w.calls = true) (fuel : Nat) (key : Key t) (value : Value) :
    ∃ m' w' d stored, hashmapPut alloc (fuel + 1) m (hashOf key) key value w = some (.ok, m', w') ∧
      Inserted m m' key value d stored ∧ w'.calls = w.calls + copyCost t := by
  obtain ⟨d, hd, hfind, hvac, hbefore⟩ := swHashmapFindEmpty_eq wf (hashOf key) room
  obtain ⟨stored, w', hcopy, hkey, hcalls⟩ := copyKey_of_copied hc
  refine ⟨_, w', d, stored, ?_, ⟨hd, hvac, hbefore, hkey, rfl⟩, hcalls⟩
  simp [hashmapPut, hfind, fill, probed_getElem? wf, hvac, hcopy, Map.write]

theorem hashmapPut_omem (wf : m.WellFormed) (room : m.size < m.tableSize)
    (hc : copied alloc t w.calls = false) (fuel : Nat) (key : Key t)
    (value : Value) : ∃ m' w' d, hashmapPut alloc (fuel + 1) m (hashOf key) key value w =
      some (.omem, m', w') ∧ Refused m m' key value d := by
  obtain ⟨d, hd, hfind, hvac, hbefore⟩ := swHashmapFindEmpty_eq wf (hashOf key) room
  obtain ⟨w', hcopy, -⟩ := copyKey_of_not_copied key hc
  refine ⟨_, w', d, ?_, ⟨hd, hvac, hbefore, rfl⟩⟩
  simp [hashmapPut, hfind, fill, probed_getElem? wf, hvac, hcopy, Map.write]

theorem FoundAt.unique (hd : m.FoundAt key d) (he : m.FoundAt key e) : d = e :=
  Nat.le_antisymm (Nat.not_lt.1 fun h => (hd.passed e h).2 he.has)
    (Nat.not_lt.1 fun h => (he.passed d h).2 hd.has)

theorem exists_foundAt (wf : m.WellFormed) (chained : m.Chained)
    (hi : i < m.tableSize) (hhas : (m.slot i).has key) : ∃ d, m.FoundAt key d := by
  obtain ⟨d₀, hd₀, rfl⟩ := exists_index wf (hashOf key) hi
  have hex : ∃ d, d < m.tableSize ∧ (m.probed (hashOf key) d).has key := ⟨d₀, hd₀, hhas⟩
  classical
  obtain ⟨hlt, hfirst⟩ := Nat.find_spec hex
  obtain ⟨stored, hs, -, hh⟩ := keyed_slot wf (index_lt wf (hashOf key) (Nat.find hex)) hfirst.1
  have hkey : stored = key := Option.some.inj (hs.symm.trans hfirst.2)
  refine ⟨Nat.find hex, hlt, hfirst, fun e he => ⟨?_, fun hhas => ?_⟩⟩
  · exact chained (hashOf key) _ hlt hfirst.1 (hh.trans (by rw [hkey])) e he
  · exact Nat.find_min hex he ⟨by omega, hhas⟩

theorem exists_slot_of_copies (wf : m.WellFormed) (h : 0 < m.copies key) :
    ∃ i < m.tableSize, (m.slot i).has key := by
  obtain ⟨s, hs, hhas⟩ := countP_pos_iff.1 h
  obtain ⟨i, hi, rfl⟩ := mem_iff_getElem.1 hs
  refine ⟨i, by rw [← wf.length]; exact hi, ?_⟩
  simpa [Map.slot, getElem?_eq_getElem hi] using hhas

theorem copies_pos_of_slot (wf : m.WellFormed)
    (hi : i < m.tableSize) (hhas : (m.slot i).has key) : 0 < m.copies key :=
  countP_pos_iff.2 ⟨_, slot_mem wf hi, by simpa using hhas⟩

theorem lookup_eq_none_iff (wf : m.WellFormed) (chained : m.Chained) (key : Key t) :
    m.lookup key = none ↔ m.copies key = 0 := by
  rw [lookup_eq_none wf]
  constructor
  · intro h
    by_contra hpos
    obtain ⟨i, hi, hhas⟩ := exists_slot_of_copies wf (Nat.pos_of_ne_zero hpos)
    exact h (exists_foundAt wf chained hi hhas)
  · rintro h ⟨d, hf⟩
    have := copies_pos_of_slot wf (index_lt wf (hashOf key) d) hf.has
    omega

section
variable {stored : StoredKey t} (wf : m.WellFormed) (ins : Inserted m m' key value d stored)
include wf ins

theorem inserted_probed (hash : UInt32) (e : Nat) :
    m'.probed hash e = if m.index hash e = m.index (hashOf key) d
      then ⟨stored, .used, hashOf key, value⟩ else m.probed hash e := by
  rw [ins.eq]
  exact probed_write wf (index_lt wf _ _) _ _ _ _

theorem inserted_probed_used {hash : UInt32} (hu : (m.probed hash e).inUse = .used) :
    m'.probed hash e = m.probed hash e := by
  have hne : m.index hash e ≠ m.index (hashOf key) d := by
    intro h
    have hp : m.probed hash e = m.probed (hashOf key) d := by unfold Map.probed; rw [h]
    exact ins.vacant (hp ▸ hu)
  rw [inserted_probed wf ins, if_neg hne]

omit wf in
@[simp] theorem inserted_tableSize : m'.tableSize = m.tableSize := by rw [ins.eq]; rfl

omit wf in
@[simp] theorem inserted_size : m'.size = m.size + 1 := by rw [ins.eq]; rfl

theorem inserted_wellFormed (valid : key.arg.key? = some key) : m'.WellFormed := by
  rw [ins.eq]
  refine wellFormed_write wf (index_lt wf _ _) (fun _ => ⟨key, ins.stores, valid, rfl⟩) ?_
  have : (m.slot (m.index (hashOf key) d)).inUse ≠ .used := ins.vacant
  simp [this]

theorem inserted_not_idle {hash : UInt32} (h : (m.probed hash e).inUse ≠ .idle) :
    (m'.probed hash e).inUse ≠ .idle := by
  rw [inserted_probed wf ins]
  split
  · simp
  · exact h

theorem inserted_chained (chained : m.Chained) : m'.Chained := by
  intro hash e he hu hh f hf
  rw [inserted_tableSize ins] at he
  rw [inserted_probed wf ins] at hu hh
  by_cases heq : m.index hash e = m.index (hashOf key) d
  · -- the new element: everything before it is in use
    simp only [heq, if_true] at hh
    subst hh
    have hed : e = d := index_inj he ins.lt heq
    refine inserted_not_idle wf ins ?_
    rw [ins.before f (by omega)]
    simp
  · simp only [heq, if_false] at hu hh
    exact inserted_not_idle wf ins (chained hash e he hu hh f hf)

theorem inserted_noDeleted (fresh : m.NoDeleted) : m'.NoDeleted := by
  intro i hi
  rw [inserted_tableSize ins] at hi
  rw [ins.eq, slot_write wf (index_lt wf _ _)]
  split
  · simp
  · exact fresh i hi

theorem inserted_copies (k : Key t) : m'.copies k = m.copies k + if k = key then 1 else 0 := by
  have hvac : ¬(m.slot (m.index (hashOf key) d)).has k := fun h => ins.vacant h.1
  rw [ins.eq, copies_write wf (index_lt wf _ _), if_neg hvac]
  simp [Slot.has, ins.stores, eq_comm]

theorem inserted_foundAt_other (hk : k ≠ key) (hf : m.FoundAt k e) : m'.FoundAt k e := by
  refine ⟨by rw [inserted_tableSize ins]; exact hf.lt, ?_, fun f hlt => ⟨?_, ?_⟩⟩
  · rw [inserted_probed_used wf ins hf.has.1]
    exact hf.has
  · exact inserted_not_idle wf ins (hf.passed f hlt).1
  · rw [inserted_probed wf ins]
    split
    · intro h
      have : some key = some k := ins.stores.symm.trans h.2
      exact hk (Option.some.inj this).symm
    · exact (hf.passed f hlt).2

theorem inserted_lookup_other (valid : key.arg.key? = some key) (chained : m.Chained) {k : Key t}
    (hk : k ≠ key) : m'.lookup k = m.lookup k := by
  have wf' := inserted_wellFormed wf ins valid
  cases hl : m.lookup k with
  | none =>
    have h0 := (lookup_eq_none_iff wf chained k).1 hl
    rw [lookup_eq_none_iff wf' (inserted_chained wf ins chained), inserted_copies wf ins, h0,
      if_neg hk]
  | some v =>
    obtain ⟨e, hf, hv⟩ := (lookup_eq_some wf k v).1 hl
    refine (lookup_eq_some wf' k v).2 ⟨e, inserted_foundAt_other wf ins hk hf, ?_⟩
    rw [inserted_probed_used wf ins hf.has.1, hv]

theorem inserted_lookup_absent (valid : key.arg.key? = some key) (absent : m.lookup key = none) :
    m'.lookup key = some value := by
  have wf' := inserted_wellFormed wf ins valid
  have hself : m'.probed (hashOf key) d = ⟨stored, .used, hashOf key, value⟩ := by
    rw [inserted_probed wf ins, if_pos rfl]
  refine (lookup_eq_some wf' key value).2 ⟨d, ⟨?_, ?_, fun e he => ?_⟩, by rw [hself]⟩
  · rw [inserted_tableSize ins]; exact ins.lt
  · rw [hself]; exact ⟨rfl, ins.stores⟩
  · have hne : m.index (hashOf key) e ≠ m.index (hashOf key) d := fun h => by
      have := index_inj (by have := ins.lt; omega) ins.lt h
      omega
    rw [inserted_probed wf ins, if_neg hne]
    refine ⟨by rw [ins.before e he]; simp, fun hhas => ?_⟩
    -- a slot for the key before `d` would have been found: all slots up to it are in use
    have hex : ∃ f, f < d ∧ (m.probed (hashOf key) f).has key := ⟨e, he, hhas⟩
    classical
    obtain ⟨hlt, hfirst⟩ := Nat.find_spec hex
    refine (lookup_eq_none wf key).1 absent ⟨Nat.find hex, by have := ins.lt; omega, hfirst,
      fun f hf => ⟨?_, fun h => Nat.find_min hex hf ⟨by omega, h⟩⟩⟩
    rw [ins.before f (by omega)]
    simp

theorem inserted_lookup_present (valid : key.arg.key? = some key) (fresh : m.NoDeleted)
    (present : m.lookup key = some v) : m'.lookup key = some v := by
  have wf' := inserted_wellFormed wf ins valid
  obtain ⟨e, hf, hv⟩ := (lookup_eq_some wf key v).1 present
  have hed : e < d := by
    by_contra hge
    rcases Nat.eq_or_lt_of_le (Nat.le_of_not_lt hge) with rfl | hlt
    · exact ins.vacant hf.has.1
    · have hidle := (hf.passed d hlt).1
      have hdel := fresh _ (index_lt wf (hashOf key) d)
      have hvac := ins.vacant
      cases hu : (m.probed (hashOf key) d).inUse with
      | idle => exact hidle hu
      | used => exact hvac hu
      | deleted => exact hdel hu
  have hsame : ∀ f ≤ e, m'.probed (hashOf key) f = m.probed (hashOf key) f := fun f hfe => by
    have hne : m.index (hashOf key) f ≠ m.index (hashOf key) d := fun h => by
      have := index_inj (by have := ins.lt; omega) ins.lt h
      omega
    rw [inserted_probed wf ins, if_neg hne]
  refine (lookup_eq_some wf' key v).2 ⟨e, ⟨?_, ?_, fun f hlt => ?_⟩, ?_⟩
  · rw [inserted_tableSize ins]; exact hf.lt
  · rw [hsame e (le_refl e)]; exact hf.has
  · rw [hsame f (by omega)]; exact hf.passed f hlt
  · rw [hsame e (le_refl e)]; exact hv

end

end SwApi.HashMap
