import SwApi.HashMap.Insertion

/-! Doubling the table: the loop may stop at any copy that cannot be made, and this module says what
the table holds then. -/
namespace SwApi.HashMap
open Library CyclicProbe List

structure Map.Fresh (m : Map t) : Prop where
  wf : m.WellFormed
  chained : m.Chained
  noDeleted : m.NoDeleted

def firstOf (slots : List (Slot t)) (key : Key t) : Option Value :=
  (slots.find? fun s => decide (s.has key)).map Slot.value

@[simp] theorem firstOf_nil (key : Key t) : firstOf ([] : List (Slot t)) key = none := rfl

theorem firstOf_cons : firstOf (s :: slots) key = if s.has key then some s.value
    else firstOf slots key := by
  by_cases h : s.has key <;> simp [firstOf, h]

def usedCount (slots : List (Slot t)) : Nat := slots.countP (·.inUse = .used)

theorem usedCount_cons : usedCount (s :: slots) = usedCount slots + if s.inUse = .used then 1
    else 0 := by
  simp [usedCount, countP_cons]

theorem copiesIn_cons (s : Slot t) (slots : List (Slot t)) (key : Key t) :
    (s :: slots).countP (fun s => decide (s.has key)) =
      slots.countP (fun s => decide (s.has key)) + if s.has key then 1 else 0 := by
  simp [countP_cons]

def reinsert (put : Map t → UInt32 → Key t → Value → Heap → Outcome t) :
    List (Slot t) → Map t → Heap → Outcome t
  | [], m, w => some (.ok, m, w)
  | s :: rest, m, w =>
      if s.inUse = .used then do
        let key ← s.key.key?
        let (status, m, w) ← put m s.hash key s.value w
        if status ≠ .ok then some (status, m, w) else reinsert put rest m w
      else reinsert put rest m w

private theorem rehashLoop_drop (put : Map t → UInt32 → Key t → Value → Heap → Outcome t)
    (curr : List (Slot t)) (left j : Nat) (h : j + left = curr.length) (m : Map t) (w : Heap) :
    rehashLoop put curr (range' j left) m w = reinsert put (curr.drop j) m w := by
  induction left generalizing j m w with
  | zero => simp [rehashLoop, reinsert, drop_eq_nil_of_le (show curr.length ≤ j by omega)]
  | succ left ih =>
    have hj : j < curr.length := by omega
    have ih' := fun m w => ih (j + 1) (by omega) m w
    rw [range'_succ, drop_eq_getElem_cons hj]
    simp only [rehashLoop, reinsert, getElem?_eq_getElem hj, Option.bind_eq_bind,
      Option.bind_some, ih']

theorem rehashLoop_eq (m : Map t) :
    rehashLoop put curr (range curr.length) m w = reinsert put curr m w := by
  have h := rehashLoop_drop put curr curr.length 0 (by omega) m w
  rwa [drop_zero, ← range_eq_range'] at h

section
variable {key : Key t} (wf : m.WellFormed) (ref : Refused m m' key value d)
include wf ref

omit wf in
theorem refused_index (hash : UInt32) (e : Nat) : m'.index hash e = m.index hash e := by
  rw [ref.eq]; rfl

omit wf in
theorem refused_tableSize : m'.tableSize = m.tableSize := by rw [ref.eq]; rfl

theorem refused_slot (i : Nat) : m'.slot i = if i = m.index (hashOf key) d
      then { m.probed (hashOf key) d with value := value, key := StoredKey.null, inUse := .idle }
      else m.slot i := by
  rw [ref.eq]
  exact slot_write wf (index_lt wf _ _) _ _ _

theorem refused_slot_used (hu : (m.slot i).inUse = .used) : m'.slot i = m.slot i := by
  rw [refused_slot wf ref, if_neg]
  rintro rfl
  exact ref.vacant hu

theorem refused_wellFormed : m'.WellFormed := by
  have hvac : (m.slot (m.index (hashOf key) d)).inUse ≠ .used := ref.vacant
  rw [ref.eq]
  refine wellFormed_write wf (index_lt wf _ _) (fun h => ?_) (by simp [hvac])
  cases h

theorem refused_copies (k : Key t) : m'.copies k = m.copies k := by
  have hvac : ¬(m.slot (m.index (hashOf key) d)).has k := fun h => ref.vacant h.1
  rw [ref.eq, copies_write wf (index_lt wf _ _), if_neg hvac, if_neg (by simp [Slot.has])]
  rfl

/-- Making a deleted slot idle can only cut ways short. -/
theorem refused_foundAt : m'.FoundAt k e ↔
      m.FoundAt k e ∧ ∀ f < e, m.index (hashOf k) f ≠ m.index (hashOf key) d := by
  have hprobed : ∀ f, m.index (hashOf k) f ≠ m.index (hashOf key) d →
      m'.probed (hashOf k) f = m.probed (hashOf k) f := fun f hne => by
    unfold Map.probed
    rw [refused_index ref, refused_slot wf ref, if_neg hne]
  have hidle : ∀ f, m.index (hashOf k) f = m.index (hashOf key) d →
      (m'.probed (hashOf k) f).inUse = .idle := fun f heq => by
    unfold Map.probed
    rw [refused_index ref, refused_slot wf ref, if_pos heq]
  constructor
  · intro h
    have hway : ∀ f < e, m.index (hashOf k) f ≠ m.index (hashOf key) d := fun f hf heq =>
      (h.passed f hf).1 (hidle f heq)
    have hself : m.index (hashOf k) e ≠ m.index (hashOf key) d := fun heq => by
      have := h.has.1
      rw [hidle e heq] at this
      cases this
    refine ⟨⟨by rw [← refused_tableSize ref]; exact h.lt, ?_, fun f hf => ?_⟩, hway⟩
    · exact hprobed e hself ▸ h.has
    · exact hprobed f (hway f hf) ▸ h.passed f hf
  · rintro ⟨h, hway⟩
    have hself : m.index (hashOf k) e ≠ m.index (hashOf key) d := fun heq => by
      have hp : m.probed (hashOf k) e = m.probed (hashOf key) d := by unfold Map.probed; rw [heq]
      exact ref.vacant (hp ▸ h.has.1)
    refine ⟨by rw [refused_tableSize ref]; exact h.lt, ?_, fun f hf => ?_⟩
    · rw [hprobed e hself]; exact h.has
    · rw [hprobed f (hway f hf)]; exact h.passed f hf

theorem refused_lookup_iff : (∀ k, m'.lookup k = m.lookup k) ↔
      ∀ k e, m.FoundAt k e → ∀ f < e, m.index (hashOf k) f ≠ m.index (hashOf key) d := by
  have wf' := refused_wellFormed wf ref
  constructor
  · intro h k e hf
    have hsome := (lookup_eq_some wf k _).2 ⟨e, hf, rfl⟩
    rw [← h] at hsome
    obtain ⟨e', hf', -⟩ := (lookup_eq_some wf' k _).1 hsome
    obtain ⟨hfm, hway⟩ := (refused_foundAt wf ref).1 hf'
    rwa [← FoundAt.unique hfm hf]
  · intro h k
    refine lookup_congr wf wf' (fun e => (refused_foundAt wf ref).trans
      (and_iff_left_of_imp (h k e))) fun e hf => ?_
    unfold Map.probed
    rw [refused_index ref, refused_slot_used wf ref hf.has.1]

section
variable (idle : (m.probed (hashOf key) d).inUse = .idle)
include idle

theorem refused_inUse (i : Nat) : (m'.slot i).inUse = (m.slot i).inUse := by
  rw [refused_slot wf ref]
  split
  · rename_i h
    rw [h]
    exact idle.symm
  · rfl

theorem refused_lookup (k : Key t) : m'.lookup k = m.lookup k := by
  refine (refused_lookup_iff wf ref).2 (fun k e hf f hlt heq => (hf.passed f hlt).1 ?_) k
  unfold Map.probed at idle ⊢
  rw [heq, idle]

end

omit wf in
theorem refused_idle (fresh : m.Fresh) : (m.probed (hashOf key) d).inUse = .idle := by
  have hd := fresh.noDeleted _ (index_lt fresh.wf (hashOf key) d)
  cases hu : (m.probed (hashOf key) d).inUse with
  | idle => rfl
  | used => exact absurd hu ref.vacant
  | deleted => exact absurd hu hd

omit wf in
theorem refused_fresh (fresh : m.Fresh) : m'.Fresh where
  wf := refused_wellFormed fresh.wf ref
  chained := by
    intro hash e he hu hh f hf
    have hstate := refused_inUse fresh.wf ref (refused_idle ref fresh)
    have hsame : m'.probed hash e = m.probed hash e := by
      unfold Map.probed at hu ⊢
      rw [refused_index ref, hstate] at hu
      rw [refused_index ref]
      exact refused_slot_used fresh.wf ref hu
    rw [refused_tableSize ref] at he
    rw [hsame] at hu hh
    have hidle := fresh.chained hash e he hu hh f hf
    unfold Map.probed at hidle ⊢
    rwa [refused_index ref, hstate]
  noDeleted := by
    intro i hi
    rw [refused_inUse fresh.wf ref (refused_idle ref fresh)]
    exact fresh.noDeleted i (by rwa [refused_tableSize ref] at hi)

end

theorem inserted_lookup_fresh {m m' : Map t} (fresh : m.Fresh)
    (ins : Inserted m m' key value d stored) (valid : key.arg.key? = some key) :
    m'.lookup k = (m.lookup k).or (if k = key then some value else none) := by
  by_cases hk : k = key
  · subst hk
    cases hl : m.lookup k with
    | none => simp [inserted_lookup_absent fresh.wf ins valid hl]
    | some v => simp [inserted_lookup_present fresh.wf ins valid fresh.noDeleted hl]
  · simp [inserted_lookup_other fresh.wf ins valid fresh.chained hk, hk]

structure Reinserted (m m' : Map t) (slots : List (Slot t)) (i : Nat) : Prop where
  fresh : m'.Fresh
  tableSize : m'.tableSize = m.tableSize
  size : m'.size = m.size + usedCount (slots.take i)
  lookup : ∀ key, m'.lookup key = (m.lookup key).or (firstOf (slots.take i) key)
  copies : ∀ key, m'.copies key =
    m.copies key + (slots.take i).countP fun s => decide (s.has key)

def CopiesMade (alloc : Alloc) (t : KeyType) (calls : Nat) (slots : List (Slot t)) (i : Nat) :
    Prop :=
  ∀ j < i, ∀ s, slots[j]? = some s → s.inUse = .used →
    copied alloc t (calls + copyCost t * usedCount (slots.take j)) = true

def CopyFails (alloc : Alloc) (t : KeyType) (calls : Nat) (slots : List (Slot t)) (i : Nat) :
    Prop :=
  ∃ s, slots[i]? = some s ∧ s.inUse = .used ∧
    copied alloc t (calls + copyCost t * usedCount (slots.take i)) = false

theorem has_iff_of_keyed {s : Slot t} (hu : s.inUse = .used)
    (hk : s.key.key? = some key) (k : Key t) : s.has k ↔ k = key := by
  simp [Slot.has, hu, hk, eq_comm]

section
variable {rest : List (Slot t)}

theorem Reinserted.cons (hs : Reinserted m m₁ [s] 1) (h : Reinserted m₁ m' rest i) :
    Reinserted m m' (s :: rest) (i + 1) where
  fresh := h.fresh
  tableSize := h.tableSize.trans hs.tableSize
  size := by
    rw [h.size, hs.size, take_succ_cons, take_succ_cons, usedCount_cons, usedCount_cons]
    simp only [take_nil, usedCount, countP_nil]
    omega
  lookup key := by
    rw [h.lookup, hs.lookup, take_succ_cons, take_succ_cons, firstOf_cons, firstOf_cons,
      Option.or_assoc]
    split <;> simp
  copies key := by
    rw [h.copies, hs.copies, take_succ_cons, take_succ_cons, copiesIn_cons, copiesIn_cons]
    simp only [take_nil, countP_nil]
    omega

theorem calls_cons (hcalls : calls' = calls + copyCost t * usedCount [s]) :
    calls + copyCost t * usedCount (s :: slots) = calls' + copyCost t * usedCount slots := by
  rw [hcalls, usedCount_cons, usedCount_cons, Nat.mul_add, Nat.mul_add]
  simp only [usedCount, countP_nil]
  omega

theorem CopiesMade.cons (h : CopiesMade alloc t calls' rest i)
    (hcalls : calls' = calls + copyCost t * usedCount [s])
    (hs : s.inUse = .used → copied alloc t calls = true) :
    CopiesMade alloc t calls (s :: rest) (i + 1) := by
  intro j hj x hx hxu
  cases j with
  | zero =>
    cases hx
    exact hs hxu
  | succ j =>
    rw [take_succ_cons, calls_cons hcalls]
    exact h j (by omega) x hx hxu

theorem CopyFails.cons (h : CopyFails alloc t calls' rest i)
    (hcalls : calls' = calls + copyCost t * usedCount [s]) :
    CopyFails alloc t calls (s :: rest) (i + 1) := by
  obtain ⟨x, hx, hxu, hfails⟩ := h
  refine ⟨x, hx, hxu, ?_⟩
  rw [take_succ_cons, calls_cons hcalls]
  exact hfails

theorem reinsert_stops (fresh : m.Fresh) (room : m.size < m.tableSize) (keyed : s.Keyed)
    (hu : s.inUse = .used) (hc : copied alloc t w.calls = false) :
    ∃ m₁ w₁, reinsert (hashmapPut alloc (fuel + 1)) (s :: rest) m w = some (.omem, m₁, w₁) ∧
      Reinserted m m₁ (s :: rest) 0 := by
  obtain ⟨key, hkey, valid, hhash⟩ := keyed hu
  obtain ⟨m₁, w₁, d, hput, ref⟩ := hashmapPut_omem fresh.wf room hc fuel key s.value
  refine ⟨m₁, w₁, by simp [reinsert, hu, hkey, hhash, hput], ?_, ?_, ?_, ?_, ?_⟩
  · exact refused_fresh ref fresh
  · exact refused_tableSize ref
  · rw [ref.eq]; rfl
  · intro k; simp [refused_lookup fresh.wf ref (refused_idle ref fresh)]
  · intro k; simp [refused_copies fresh.wf ref]

theorem reinsert_next {w : Heap} (fresh : m.Fresh) (room : m.size < m.tableSize) (keyed : s.Keyed)
    (hc : s.inUse = .used → copied alloc t w.calls = true) :
    ∃ m₁ w₁, reinsert (hashmapPut alloc (fuel + 1)) (s :: rest) m w =
        reinsert (hashmapPut alloc (fuel + 1)) rest m₁ w₁ ∧
      Reinserted m m₁ [s] 1 ∧ w₁.calls = w.calls + copyCost t * usedCount [s] := by
  by_cases hu : s.inUse = .used
  · obtain ⟨key, hkey, valid, hhash⟩ := keyed hu
    have hhas := has_iff_of_keyed hu hkey
    obtain ⟨m₁, w₁, d, stored, hput, ins, hcalls⟩ :=
      hashmapPut_ok fresh.wf room (hc hu) fuel key s.value
    have fresh₁ : m₁.Fresh := ⟨inserted_wellFormed fresh.wf ins valid,
      inserted_chained fresh.wf ins fresh.chained,
      inserted_noDeleted fresh.wf ins fresh.noDeleted⟩
    have hone : usedCount [s] = 1 := by simp [usedCount, hu]
    refine ⟨m₁, w₁, by simp [reinsert, hu, hkey, hhash, hput],
      ⟨fresh₁, inserted_tableSize ins, ?_, ?_, ?_⟩, ?_⟩
    · rw [inserted_size ins, take_succ_cons, take_nil, hone]
    · intro k
      rw [inserted_lookup_fresh fresh ins valid, take_succ_cons, firstOf_cons]
      by_cases hk : k = key <;> simp [hhas, hk]
    · intro k
      rw [inserted_copies fresh.wf ins, take_succ_cons, copiesIn_cons]
      simp [hhas]
    · rw [hcalls, hone, Nat.mul_one]
  · have hno : ∀ k, ¬s.has k := fun k h => hu h.1
    have hnone : usedCount [s] = 0 := by simp [usedCount, hu]
    refine ⟨m, w, by simp [reinsert, hu], ⟨fresh, rfl, ?_, ?_, ?_⟩, ?_⟩
    · simp [hnone]
    · intro k
      rw [take_succ_cons, firstOf_cons, if_neg (hno k)]
      simp
    · intro k
      rw [take_succ_cons, copiesIn_cons, if_neg (hno k)]
      simp
    · simp [hnone]

end

theorem reinsert_spec (alloc : Alloc) (fuel : Nat) (slots : List (Slot t)) (m : Map t) (w : Heap)
    (fresh : m.Fresh) (room : m.size + usedCount slots < m.tableSize)
    (keyed : ∀ s ∈ slots, s.Keyed) :
    ∃ i status m' w', reinsert (hashmapPut alloc (fuel + 1)) slots m w = some (status, m', w') ∧
      Reinserted m m' slots i ∧ CopiesMade alloc t w.calls slots i ∧
      ((status = .ok ∧ i = slots.length ∧ w'.calls = w.calls + copyCost t * usedCount slots) ∨
        (status = .omem ∧ i < slots.length ∧ CopyFails alloc t w.calls slots i)) := by
  induction slots generalizing m w with
  | nil =>
    refine ⟨0, .ok, m, w, rfl, ⟨fresh, rfl, rfl, fun key => ?_, fun key => rfl⟩,
      fun j hj => by omega, .inl ⟨rfl, rfl, by simp [usedCount]⟩⟩
    simp
  | cons s rest ih =>
    have hs : s.Keyed := keyed s mem_cons_self
    have hrest : ∀ x ∈ rest, x.Keyed := (forall_mem_cons.1 keyed).2
    have hroom : m.size < m.tableSize := by omega
    by_cases hstop : s.inUse = .used ∧ copied alloc t w.calls = false
    · obtain ⟨hu, hc⟩ := hstop
      obtain ⟨m₁, w₁, hrun, hre⟩ := reinsert_stops fresh hroom hs hu hc
      exact ⟨0, .omem, m₁, w₁, hrun, hre, fun j hj => by omega,
        .inr ⟨rfl, by simp, s, rfl, hu, by simpa [usedCount] using hc⟩⟩
    · have hc : s.inUse = .used → copied alloc t w.calls = true := by
        intro hu
        rw [← Bool.not_eq_false]
        exact fun hc => hstop ⟨hu, hc⟩
      obtain ⟨m₁, w₁, hnext, hone, hcalls⟩ := reinsert_next fresh hroom hs hc
      have hroom₁ : m₁.size + usedCount rest < m₁.tableSize := by
        have hsize := hone.size
        rw [usedCount_cons] at room
        rw [take_succ_cons, usedCount_cons] at hsize
        simp only [take_nil, usedCount, countP_nil] at hsize room ⊢
        rw [hone.tableSize]
        omega
      obtain ⟨i, status, m', w', hrun, hre, hmade, hend⟩ := ih m₁ w₁ hone.fresh hroom₁ hrest
      refine ⟨i + 1, status, m', w', hnext.trans hrun, hone.cons hre, hmade.cons hcalls hc, ?_⟩
      rcases hend with ⟨hok, hi, hw⟩ | ⟨homem, hi, hfails⟩
      · refine .inl ⟨hok, by rw [hi, length_cons], ?_⟩
        rw [hw, calls_cons hcalls]
      · exact .inr ⟨homem, by simpa using hi, hfails.cons hcalls⟩

/-- Doubling asks for a byte count that fits 32 bits. -/
def Map.Roomy (m : Map t) : Prop := m.size = m.tableSize → m.tableSize < 2^27
  deriving Decidable

/-- `m'` has twice the size of the full table `m` and holds the elements of
its first `i` slots. -/
structure Rehashed (m m' : Map t) (i : Nat) : Prop where
  fresh : m'.Fresh
  tableSize : m'.tableSize = 2 * m.tableSize
  size : m'.size = i
  lookup : ∀ key, m'.lookup key = firstOf (m.data.take i) key
  copies : ∀ key, m'.copies key = (m.data.take i).countP fun s => decide (s.has key)

theorem fresh_of_zeroed {m : Map t} (hpos : 0 < m.tableSize) (hsmall : m.tableSize < 2^28)
    (hsize : m.size = 0) (hdata : m.data = zeroed m.tableSize) :
    m.Fresh ∧ (∀ key, m.copies key = 0) ∧ ∀ key, m.lookup key = none := by
  have hslots : m.tableSize * elementSize % 2^32 / elementSize =
    m.tableSize := by unfold elementSize; omega
  rw [zeroed, hslots] at hdata
  have hidle : ∀ i, (m.slot i).inUse = .idle := fun i => by
    by_cases hi : i < m.tableSize <;> simp [Map.slot, hdata, hi, Slot.zero]
  have hcopies : ∀ key, m.copies key = 0 := fun key => by
    simp [Map.copies, hdata, countP_replicate, Slot.has, Slot.zero]
  have wf : m.WellFormed := ⟨hpos, by simp [hdata], by
    simp [hsize, hdata, countP_replicate, Slot.zero], by
    intro s hs
    rw [hdata] at hs
    rw [(mem_replicate.1 hs).2]
    intro h
    cases h⟩
  have chained : m.Chained := fun hash d _ hu => by
    have := hidle (m.index hash d)
    unfold Map.probed at hu
    rw [this] at hu
    cases hu
  exact ⟨⟨wf, chained, fun i _ => by rw [hidle i]; simp⟩, hcopies,
    fun key => (lookup_eq_none_iff wf chained key).2 (hcopies key)⟩

theorem usedCount_take_full {m : Map t} (wf : m.WellFormed) (full : m.size = m.tableSize)
    (hi : i ≤ m.tableSize) : usedCount (m.data.take i) = i := by
  have hall : ∀ s ∈ m.data, s.inUse = .used := by
    intro s hs
    have hc : m.data.countP (·.inUse = .used) = m.data.length := by
      rw [← wf.count, wf.length, full]
    simpa using countP_eq_length.1 hc s hs
  have hlen : (m.data.take i).length = i := by
    rw [length_take, wf.length]; omega
  rw [usedCount, countP_eq_length.2 (fun s hs => by simp [hall s (mem_of_mem_take hs)]),
    hlen]

@[simp] theorem Heap.freeKey_calls (w : Heap) (key : StoredKey t) :
    (w.freeKey key).calls = w.calls := by
  cases t with
  | digital => rfl
  | string => cases key <;> rfl

@[simp] theorem freeOld_calls : (freeOld old w).calls = w.calls := by
  unfold freeOld
  generalize old.data = slots
  change (slots.foldl _ w).calls = w.calls
  induction slots generalizing w with
  | nil => rfl
  | cons s rest ih =>
    rw [foldl_cons, ih]
    split <;> simp

theorem swHashmapRehash_spec (alloc : Alloc) (fuel : Nat) {m : Map t} (wf : m.WellFormed)
    (full : m.size = m.tableSize) (hsmall : m.tableSize < 2^27) (w : Heap)
    (table : alloc w.calls = true) :
    ∃ i status m' w', swHashmapRehash alloc (hashmapPut alloc (fuel + 1)) m w =
        some (status, m', w') ∧ Rehashed m m' i ∧
      (∀ j < i, copied alloc t (w.calls + 1 + copyCost t * j) = true) ∧
      ((status = .ok ∧ i = m.tableSize ∧ w'.calls = w.calls + 1 + copyCost t * m.tableSize) ∨
        (status = .omem ∧ i < m.tableSize ∧ copied alloc t (w.calls + 1 + copyCost t * i) =
        false)) := by
  let new : Map t := ⟨2 * m.tableSize, 0, zeroed (2 * m.tableSize), w.calls⟩
  obtain ⟨hfresh, hcopies, hlookup⟩ := fresh_of_zeroed (m := new)
    (show 0 < 2 * m.tableSize by have := wf.sized; omega)
    (show 2 * m.tableSize < 2^28 by omega) rfl rfl
  have hcount : usedCount m.data = m.tableSize := by rw [← full, wf.count]; rfl
  obtain ⟨i, status, m', w', hrun, hre, hmade, hend⟩ := reinsert_spec alloc fuel m.data new
    ⟨w.calls + 1, w.freed⟩ hfresh
    (by change 0 + usedCount m.data < 2 * m.tableSize; have := wf.sized; omega) wf.keyed
  have hi : i ≤ m.tableSize := by
    rw [← wf.length]
    rcases hend with ⟨-, h, -⟩ | ⟨-, h, -⟩ <;> omega
  have hslot : ∀ j < m.tableSize, ∃ s, m.data[j]? = some s ∧ s.inUse = .used := fun j hj =>
    ⟨_, data_getElem? wf hj, used_of_full wf full hj⟩
  have hover : ¬2^31 ≤ 2 * m.tableSize := by omega
  have hloop : rehashLoop (hashmapPut alloc (fuel + 1)) m.data (range m.tableSize) new
      ⟨w.calls + 1, w.freed⟩ = some (status, m', w') := by
    rw [← wf.length, rehashLoop_eq]
    exact hrun
  refine ⟨i, status, m', if status ≠ .ok then w' else freeOld m w', ?_, ⟨hre.fresh, hre.tableSize,
    ?_, fun key => ?_, fun key => ?_⟩, fun j hj => ?_, ?_⟩
  · simp only [swHashmapRehash, hover, if_false, Heap.malloc, table, if_true]
    change (rehashLoop _ _ _ new _).bind _ = _
    rw [hloop]
    by_cases hs : status = .ok <;> simp [hs]
  · rw [hre.size, usedCount_take_full wf full hi]
    exact Nat.zero_add i
  · rw [hre.lookup, hlookup]; rfl
  · rw [hre.copies, hcopies]; omega
  · obtain ⟨s, hs, hu⟩ := hslot j (by omega)
    have := hmade j hj s hs hu
    rwa [usedCount_take_full wf full (by omega)] at this
  · rcases hend with ⟨hs, hlen, hw⟩ | ⟨hs, hlen, s, hx, hxu, hxf⟩
    · refine .inl ⟨hs, by rw [hlen, wf.length], ?_⟩
      simp [hs, hw, hcount]
    · rw [wf.length] at hlen
      rw [usedCount_take_full wf full hi] at hxf
      exact .inr ⟨hs, hlen, hxf⟩

/-- Everything a put of an acceptable key can do, with the allocator's answers
that lead there. `calls` counts the attempts before the put. -/
inductive PutStep (alloc : Alloc) (calls : Nat) (m : Map t) (key : Key t) (value : Value) :
    Status → Map t → Prop where
  | stored {m' d stored} (room : m.size < m.tableSize) (copy : copied alloc t calls = true)
      (ins : Inserted m m' key value d stored) : PutStep alloc calls m key value .ok m'
  | refused {m' d} (room : m.size < m.tableSize) (copy : copied alloc t calls = false)
      (ref : Refused m m' key value d) : PutStep alloc calls m key value .omem m'
  | noTable (full : m.size = m.tableSize) (table : alloc calls = false) :
      PutStep alloc calls m key value .omem m
  | halfway {m' i} (full : m.size = m.tableSize) (table : alloc calls = true)
      (lt : i < m.tableSize) (made : ∀ j < i, copied alloc t (calls + 1 + copyCost t * j) = true)
      (copy : copied alloc t (calls + 1 + copyCost t * i) = false) (re : Rehashed m m' i) :
      PutStep alloc calls m key value .omem m'
  | grown {m₁ m' d stored} (full : m.size = m.tableSize) (table : alloc calls = true)
      (made : ∀ j < m.tableSize, copied alloc t (calls + 1 + copyCost t * j) = true)
      (copy : copied alloc t (calls + 1 + copyCost t * m.tableSize) = true)
      (re : Rehashed m m₁ m.tableSize) (ins : Inserted m₁ m' key value d stored) :
      PutStep alloc calls m key value .ok m'
  | grownRefused {m₁ m' d} (full : m.size = m.tableSize) (table : alloc calls = true)
      (made : ∀ j < m.tableSize, copied alloc t (calls + 1 + copyCost t * j) = true)
      (copy : copied alloc t (calls + 1 + copyCost t * m.tableSize) = false)
      (re : Rehashed m m₁ m.tableSize) (ref : Refused m₁ m' key value d) :
      PutStep alloc calls m key value .omem m'

/-- Two rounds are enough: the table is not full after it has been doubled. -/
theorem hashmapPut_step (alloc : Alloc) (fuel : Nat) (wf : m.WellFormed)
    (roomy : m.Roomy) (key : Key t) (value : Value) (w : Heap) :
    ∃ status m' w', hashmapPut alloc (fuel + 2) m (hashOf key) key value w = some (status, m', w') ∧
      PutStep alloc w.calls m key value status m' := by
  rcases Nat.lt_or_eq_of_le (size_le wf) with room | full
  · cases hc : copied alloc t w.calls with
    | true =>
      obtain ⟨m', w', d, stored, hput, ins, -⟩ := hashmapPut_ok wf room hc (fuel + 1) key value
      exact ⟨_, m', w', hput, .stored room hc ins⟩
    | false =>
      obtain ⟨m', w', d, hput, ref⟩ := hashmapPut_omem wf room hc (fuel + 1) key value
      exact ⟨_, m', w', hput, .refused room hc ref⟩
  · have hsmall := roomy full
    cases table : alloc w.calls with
    | false =>
      refine ⟨.omem, m, ⟨w.calls + 1, w.freed⟩, ?_, .noTable full table⟩
      have hover : ¬2147483648 ≤ 2 * m.tableSize := by omega
      rw [hashmapPut, swHashmapFindEmpty_full _ full]
      simp [swHashmapRehash, hover, Heap.malloc, table]
    | true =>
      obtain ⟨i, status, m₁, w₁, hre, re, made, hend⟩ :=
        swHashmapRehash_spec alloc fuel wf full hsmall w table
      rcases hend with ⟨rfl, rfl, hw⟩ | ⟨rfl, hlt, hfail⟩
      · have room₁ : m₁.size < m₁.tableSize := by
          rw [re.size, re.tableSize]; have := wf.sized; omega
        cases hc : copied alloc t w₁.calls with
        | true =>
          obtain ⟨m', w', d, stored, hput, ins, -⟩ :=
            hashmapPut_ok re.fresh.wf room₁ hc fuel key value
          refine ⟨.ok, m', w', ?_, .grown full table made (by rw [← hw]; exact hc) re ins⟩
          rw [hashmapPut, swHashmapFindEmpty_full _ full]
          simp [hre, hput]
        | false =>
          obtain ⟨m', w', d, hput, ref⟩ := hashmapPut_omem re.fresh.wf room₁ hc fuel key value
          refine ⟨.omem, m', w', ?_, .grownRefused full table made (by rw [← hw]; exact hc) re ref⟩
          rw [hashmapPut, swHashmapFindEmpty_full _ full]
          simp [hre, hput]
      · refine ⟨.omem, m₁, w₁, ?_, .halfway full table hlt made hfail re⟩
        rw [hashmapPut, swHashmapFindEmpty_full _ full]
        simp [hre]

end SwApi.HashMap
