import SwApi.HashMap.Runs
import SwApi.Library.Lists

/-! Who frees what. A removal breaks the balance: it frees the value, which belongs to the caller,
and forgets the key. -/
namespace SwApi.HashMap
open Library CyclicProbe List Option

/-- `self` and `lock` are the blocks of the map and of its lock. -/
def swHashmapDestroy (self lock : Nat) (m : Map t) (w : Heap) : Option Heap :=
  if t = .string ∧ m.data.length < m.tableSize then none
  else
    let w := freeOld { m with data := m.data.take m.tableSize } w
    some ((w.free (.block lock)).free (.block self))

def Heap.made (w w' : Heap) : List Freed :=
  (range' w.calls (w'.calls - w.calls)).map .block

/-- Every block that is allocated in between is freed once, and nothing else is freed. -/
def FreedOnce (w w' : Heap) : Prop := ∃ freed, w'.freed = w.freed ++ freed ∧ freed.Perm (w.made w')

def StoredKey.owns : {t : KeyType} → StoredKey t → Freed → Nat
  | .digital, _, _ => 0
  | .string, none, _ => 0
  | .string, some copy, p => [Freed.block copy.block].count p

def Slot.owns (s : Slot t) (p : Freed) : Nat := if s.inUse = .used then s.key.owns p else 0

def Map.owns (m : Map t) (p : Freed) : Nat :=
  [Freed.block m.block].count p + (m.data.map (·.owns p)).sum

theorem zeroed_owns (n : Nat) (p : Freed) : ((zeroed n : List (Slot t)).map (·.owns p)).sum =
    0 := by
  simp [zeroed, Slot.owns, Slot.zero]

theorem owns_set {m : Map t} (hs : m.data[i]? = some s) (s' : Slot t) (size : Nat) (p : Freed) :
    ({ m with data := m.data.set i s', size } : Map t).owns p + s.owns p =
    m.owns p + s'.owns p := by
  have hsum := sum_map_set hs s' (·.owns p)
  unfold Map.owns
  dsimp only at hsum ⊢
  omega

/-- From the state `m, w` to `m', w'`: what is freed or still owned is what was owned or
has been allocated, but for the blocks `lost` and the caller's pointers in `strange`. -/
structure Balanced (m : Map t) (w : Heap) (m' : Map t) (w' : Heap) (lost strange : List Freed) :
    Prop where
  calls : w.calls ≤ w'.calls
  freed : w.freed <+: w'.freed
  count : ∀ p, w'.freed.count p + m'.owns p + lost.count p =
    w.freed.count p + m.owns p + (w.made w').count p + strange.count p

theorem made_self (w : Heap) (freed : List Freed) : w.made { w with freed } = [] := by
  simp [Heap.made]

theorem made_append {w w' w'' : Heap} (h : w.calls ≤ w'.calls) (h' : w'.calls ≤ w''.calls) :
    w.made w'' = w.made w' ++ w'.made w'' := by
  have hstart : w.calls + (w'.calls - w.calls) = w'.calls := by omega
  have hlength : w'.calls - w.calls + (w''.calls - w'.calls) = w''.calls - w.calls := by omega
  have happend := range'_append_1 (s := w.calls) (m := w'.calls - w.calls)
    (n := w''.calls - w'.calls)
  rw [hstart, hlength] at happend
  rw [Heap.made, Heap.made, Heap.made, ← map_append, happend]

theorem Balanced.refl (m : Map t) (w : Heap) : Balanced m w m w [] [] :=
  ⟨le_rfl, prefix_rfl, by simp [made_self w w.freed]⟩

theorem Balanced.trans {m m' m'' : Map t}
    (h : Balanced m w m' w' lost strange) (h' : Balanced m' w' m'' w'' lost' strange') :
    Balanced m w m'' w'' (lost ++ lost') (strange ++ strange') where
  calls := h.calls.trans h'.calls
  freed := h.freed.trans h'.freed
  count p := by
    have hp := h.count p
    have hp' := h'.count p
    rw [made_append h.calls h'.calls]
    simp only [count_append]
    omega

abbrev Kept (m : Map t) (w : Heap) (m' : Map t) (w' : Heap) : Prop := Balanced m w m' w' [] []

theorem free_count (w : Heap) (p r : Freed) :
    (w.free p).freed.count r = w.freed.count r + [p].count r := by
  simp [Heap.free]

/-- Nothing is allocated, and what is freed are the pointers that `owns` counts. -/
structure Frees (w w' : Heap) (owns : Freed → Nat) : Prop where
  calls : w'.calls = w.calls
  freed : w.freed <+: w'.freed
  count : ∀ p, w'.freed.count p = w.freed.count p + owns p

theorem Frees.refl (w : Heap) : Frees w w fun _ => 0 := ⟨rfl, prefix_rfl, fun _ => rfl⟩

theorem Frees.trans (h : Frees w w' f) (h' : Frees w' w'' g) : Frees w w'' fun p => f p + g p :=
  ⟨h'.calls.trans h.calls, h.freed.trans h'.freed,
    fun p => by rw [h'.count, h.count, Nat.add_assoc]⟩

theorem Frees.free (w : Heap) (p : Freed) : Frees w (w.free p) [p].count :=
  ⟨rfl, prefix_append _ _, free_count w p⟩

theorem freeKey_spec {w : Heap} {key : StoredKey t} : Frees w (w.freeKey key) key.owns := by
  cases t with
  | digital => exact .refl w
  | string =>
    cases key with
    | none => exact .refl w
    | some copy => exact .free w _

theorem freeUsed_spec (w : Heap) (s : Slot t) :
    Frees w (if s.inUse = .used then w.freeKey s.key else w) s.owns := by
  unfold Slot.owns
  split
  · exact freeKey_spec
  · exact .refl w

theorem freeOld_spec (m : Map t) (w : Heap) : Frees w (freeOld m w) m.owns := by
  have hloop : ∀ (slots : List (Slot t)) (w : Heap),
      Frees w (slots.foldl (fun w s => if s.inUse = .used then w.freeKey s.key else w) w) fun p =>
        (slots.map (·.owns p)).sum := by
    intro slots
    induction slots with
    | nil => exact .refl
    | cons s rest ih => exact fun w => (freeUsed_spec w s).trans (ih _)
  obtain ⟨hcalls, hfreed, hcount⟩ := (hloop m.data w).trans (.free _ (.block m.block))
  refine ⟨hcalls, hfreed, fun p => (hcount p).trans ?_⟩
  rw [Map.owns, Nat.add_comm ([_].count p)]

section
variable {alloc : Alloc} (all : ∀ n, alloc n = true)
include all

theorem malloc_all (w : Heap) : w.malloc alloc = (some w.calls, ⟨w.calls + 1, w.freed⟩) := by
  simp [Heap.malloc, all]

omit all in
theorem made_malloc (w : Heap) : w.made ⟨w.calls + 1, w.freed⟩ = [.block w.calls] := by
  simp [Heap.made]

theorem copyKey_spec (key : Key t) (w : Heap) :
    ∃ stored w', copyKey alloc key w = (some stored, w') ∧
    w.calls ≤ w'.calls ∧ w'.freed = w.freed ∧ ∀ p, stored.owns p = (w.made w').count p := by
  cases t with
  | digital =>
    refine ⟨key, w, rfl, le_rfl, rfl, ?_⟩
    intro p
    rw [made_self w w.freed]
    rfl
  | string =>
    refine ⟨some ⟨w.calls, key⟩, ⟨w.calls + 1, w.freed⟩, ?_, Nat.le_succ _, rfl, ?_⟩
    · rw [copyKey, malloc_all all]
      rfl
    · intro p
      rw [made_malloc w]
      rfl

theorem fill_kept {m m' : Map t} {index : Nat} {hash : UInt32}
    (h : fill alloc m index hash key value w = some (status, m', w')) : status = .ok ∧
    Kept m w m' w' := by
  obtain ⟨s, hs, h⟩ := bind_eq_some_iff.1 h
  obtain ⟨hcalls, hfreed, hcount⟩ := freeUsed_spec w s
  obtain ⟨stored, w₂, hcopy, hcalls₂, hfreed₂, hcount₂⟩ :=
    copyKey_spec all key (if s.inUse = .used then w.freeKey s.key else w)
  dsimp only at h
  rw [hcopy] at h
  cases h
  refine ⟨rfl, ?_⟩
  constructor
  · omega
  · rw [hfreed₂]
    exact hfreed
  · intro p
    have hset := owns_set hs ⟨stored, .used, hash, value⟩ (m.size + 1) p
    have howns : (⟨stored, .used, hash, value⟩ : Slot t).owns p = stored.owns p := rfl
    have hmade : w.made w' = (if s.inUse = .used then w.freeKey s.key else w).made w' := by
      rw [Heap.made, Heap.made, hcalls]
    have hp := hcount p
    have hp₂ := hcount₂ p
    rw [hfreed₂, hmade]
    omega

omit all in
theorem rehashLoop_kept
    (hput : ∀ m hash key value w status m' w', put m hash key value w = some (status, m', w') →
      status = .ok ∧ Kept m w m' w')
    (h : rehashLoop put curr is m w = some (status, m', w')) : status = .ok ∧ Kept m w m' w' := by
  induction is generalizing m w with
  | nil =>
    cases h
    exact ⟨rfl, .refl _ _⟩
  | cons i rest ih =>
    obtain ⟨s, -, h⟩ := bind_eq_some_iff.1 h
    split at h
    · obtain ⟨key, -, h⟩ := bind_eq_some_iff.1 h
      obtain ⟨⟨status₁, m₁, w₁⟩, hone, h⟩ := bind_eq_some_iff.1 h
      obtain ⟨rfl, hkept⟩ := hput _ _ _ _ _ _ _ _ hone
      obtain ⟨hstatus, hrest⟩ := ih h
      exact ⟨hstatus, hkept.trans hrest⟩
    · exact ih h

theorem swHashmapRehash_kept {put : Map t → UInt32 → Key t → Value → Heap → Outcome t}
    (hput : ∀ m hash key value w status m' w', put m hash key value w = some (status, m', w') →
      status = .ok ∧ Kept m w m' w')
    (h : swHashmapRehash alloc put m w = some (status, m', w')) : status = .ok ∧
    Kept m w m' w' := by
  rw [swHashmapRehash] at h
  split at h
  · cases h
  · rw [malloc_all all] at h
    obtain ⟨⟨status₁, m₁, w₁⟩, hloop, h⟩ := bind_eq_some_iff.1 h
    obtain ⟨rfl, hkept⟩ := rehashLoop_kept hput hloop
    cases h
    obtain ⟨hcalls, hfreed, hcount⟩ := freeOld_spec m w₁
    refine ⟨rfl, ?_⟩
    constructor
    · have := hkept.calls
      dsimp only at this
      omega
    · exact hkept.freed.trans hfreed
    · -- the new table is allocated, the old one and its keys are freed
      intro p
      have hp := hkept.count p
      have hp' := hcount p
      have hmade : w.made (freeOld m w₁) = w.made ⟨w.calls + 1, w.freed⟩ ++
          (⟨w.calls + 1, w.freed⟩ : Heap).made w₁ := by
        rw [← made_append (Nat.le_succ _) hkept.calls, Heap.made, Heap.made, hcalls]
      rw [hmade, count_append, made_malloc w]
      simp only [Map.owns, zeroed_owns, count_nil] at hp hp' ⊢
      omega

theorem hashmapPut_kept {fuel : Nat} {m m' : Map t} {hash : UInt32}
    (h : hashmapPut alloc fuel m hash key value w = some (status, m', w')) : status = .ok ∧
    Kept m w m' w' := by
  induction fuel generalizing m hash key value w m' w' status with
  | zero => cases h
  | succ fuel ih =>
    rw [hashmapPut] at h
    split at h
    · cases h
    · exact fill_kept all h
    · obtain ⟨⟨status₁, m₁, w₁⟩, hrehash, h⟩ := bind_eq_some_iff.1 h
      obtain ⟨rfl, hkept⟩ := swHashmapRehash_kept all (fun _ _ _ _ _ _ _ _ => ih) hrehash
      obtain ⟨hstatus, hrest⟩ := ih h
      exact ⟨hstatus, hkept.trans hrest⟩

theorem swHashmapPut_kept (h : swHashmapPut alloc m arg value w = some (status, m', w')) :
    Kept m w m' w' := by
  rw [swHashmapPut] at h
  split at h
  · cases h
    exact .refl m w
  · exact (hashmapPut_kept all h).2

end

theorem removed_balanced {m : Map .string} (wf : m.WellFormed)
    (hf : m.FoundAt key d) : ∃ (block : Nat) (value : Value),
    Balanced m w (removedMap m key d) (w.freeValue .string (m.probed (hashOf key) d).value)
      [.block block] [.value value] := by
  obtain ⟨hused, hkey⟩ := hf.has
  obtain ⟨copy, hcopy, -⟩ := map_eq_some_iff.1 hkey
  refine ⟨copy.block, (m.probed (hashOf key) d).value, ?_⟩
  constructor
  · exact le_rfl
  · exact prefix_append _ _
  · intro p
    have hset := owns_set (probed_getElem? wf (hashOf key) d) (m.probed (hashOf key) d).removed
      (m.size - 1) p
    have hbefore : (m.probed (hashOf key) d).owns p = [Freed.block copy.block].count p := by
      rw [Slot.owns, if_pos hused, hcopy]
      rfl
    have hafter : (m.probed (hashOf key) d).removed.owns p = 0 := rfl
    have hfree := free_count w (.value (m.probed (hashOf key) d).value) p
    have hmade : w.made (w.freeValue .string (m.probed (hashOf key) d).value) = [] := made_self w _
    change (w.free (.value (m.probed (hashOf key) d).value)).freed.count p +
      ({ m with data := m.data.set (m.index (hashOf key) d) (m.probed (hashOf key) d).removed,
                size := m.size - 1 } : Map .string).owns p + _ = _
    rw [hmade, count_nil]
    omega

def Spares (s : Map t × Heap) : Op t → Prop
  | .remove arg => ∀ key, arg.key? = some key → ∀ slot ∈ s.1.data, ¬slot.has key
  | _ => True

instance (s : Map t × Heap) (op : Op t) : Decidable (Spares s op) := by
  rcases op with _ | _ <;> dsimp only [Spares] <;> infer_instance

/-- The accounts of a run: as many copies are lost as values are freed; when there are
none, every step has spared the keys and no slot is deleted. -/
structure Accounts (alloc : Alloc) (start : Map .string × Heap)
    (history : List (Op .string × Status))
    (s : Map .string × Heap) (lost : List Nat) (strange : List Value) : Prop where
  balanced : Balanced start.1 start.2 s.1 s.2 (lost.map .block) (strange.map .value)
  paired : lost.length = strange.length
  spared : strange = [] → Run (step alloc) (fun s op => Fits s op ∧ Spares s op) start history s
  clean : strange = [] → s.1.NoDeleted

section
variable {s s' : Map .string × Heap}

theorem Accounts.kept (h : Accounts alloc start history s lost strange)
    (hkept : Kept s.1 s.2 s'.1 s'.2) (fits : Fits s op)
    (hs : step alloc s op = some (status, s')) (hspares : strange = [] → Spares s op)
    (hclean : s.1.NoDeleted → s'.1.NoDeleted) :
    Accounts alloc start (history ++ [(op, status)]) s' lost strange where
  balanced := by simpa using h.balanced.trans hkept
  paired := h.paired
  spared hnone := (h.spared hnone).next ⟨fits, hspares hnone⟩ hs
  clean hnone := hclean (h.clean hnone)

theorem PutStep.noDeleted (all : ∀ n, alloc n = true) (wf : s.1.WellFormed) (hclean : s.1.NoDeleted)
    (hstep : PutStep alloc calls s.1 key value status s'.1) : s'.1.NoDeleted := by
  obtain ⟨-, m₁, d, stored, ins, rfl | re⟩ := hstep.inserts all
  · exact inserted_noDeleted wf ins hclean
  · exact inserted_noDeleted re.fresh.wf ins re.fresh.noDeleted

theorem not_missing (wf : s.1.WellFormed) (chained : s.1.Chained) (hclean : s.1.NoDeleted)
    (hmissing : ¬∃ d, s.1.FoundAt key d ∧
      ∀ e < d, (s.1.probed (hashOf key) e).inUse ≠ .deleted) (hslot :
      slot ∈ s.1.data) : ¬slot.has key := by
  intro hhas
  obtain ⟨i, hi⟩ := mem_iff_getElem?.1 hslot
  have hlt : i < s.1.tableSize := by
    rw [← wf.length]
    exact (List.getElem?_eq_some_iff.1 hi).1
  cases some.inj ((data_getElem? wf hlt).symm.trans hi)
  obtain ⟨d, hf⟩ := exists_foundAt wf chained hlt hhas
  exact hmissing ⟨d, hf, fun e _ => hclean _ (index_lt wf _ _)⟩

theorem Accounts.step (all : ∀ n, alloc n = true) (h : Accounts alloc start history s lost strange)
    (wf : s.1.WellFormed) (chained : s.1.Chained) (fits : Fits s op)
    (hs : step alloc s op = some (status, s')) :
    ∃ lost' strange', Accounts alloc start (history ++ [(op, status)]) s' lost' strange' := by
  cases Stepped.of_step wf fits hs with
  | put harg hstep =>
    exact ⟨lost, strange, h.kept (swHashmapPut_kept all hs) fits hs (fun _ => trivial) fun hclean =>
      hstep.noDeleted all wf hclean⟩
  | rejected | got => exact ⟨lost, strange, h.kept (.refl _ _) fits hs (fun _ => trivial) id⟩
  | missing hmissing =>
    refine ⟨lost, strange, h.kept (.refl _ _) fits hs (fun hnone key hkey slot hslot => ?_) id⟩
    exact not_missing wf chained (h.clean hnone) (hmissing key hkey) hslot
  | removed harg hf =>
    obtain ⟨block, value, hbalanced⟩ := removed_balanced wf hf
    refine ⟨lost ++ [block], strange ++ [value], ?_, ?_, ?_, ?_⟩
    · simpa using h.balanced.trans hbalanced
    · simp [h.paired]
    · simp
    · simp

theorem kept_of_spares (all : ∀ n, alloc n = true) (wf : s.1.WellFormed) (fits : Fits s op)
    (hspares : Spares s op)
    (hs : step alloc s op = some (status, s')) : Kept s.1 s.2 s'.1 s'.2 := by
  cases Stepped.of_step wf fits hs with
  | put => exact swHashmapPut_kept all hs
  | removed harg hf => exact absurd hf.has (hspares _ harg _ (slot_mem wf (index_lt wf _ _)))
  | rejected | got | missing => exact .refl _ _

end

theorem create_owns (all : ∀ n, alloc n = true)
    (hcreate : swHashmapCreate alloc t size w = (some m₀, w₀)) :
    w₀ = ⟨w.calls + 3, w.freed⟩ ∧ ∀ p, m₀.owns p = [Freed.block (w.calls + 1)].count p := by
  simp only [swHashmapCreate, malloc_all all, Prod.mk.injEq, some.injEq] at hcreate
  obtain ⟨rfl, rfl⟩ := hcreate
  refine ⟨rfl, ?_⟩
  intro p
  rw [Map.owns, zeroed_owns, Nat.add_zero]

theorem swHashmapDestroy_spec {m : Map t} (wf : m.WellFormed) :
    ∃ w', swHashmapDestroy self lock m w = some w' ∧
      Frees w w' fun p => m.owns p + [Freed.block lock].count p + [Freed.block self].count p := by
  have hslots : ¬(t = .string ∧ m.data.length < m.tableSize) := by
    rw [wf.length]
    omega
  have htake : m.data.take m.tableSize = m.data := take_of_length_le wf.length.le
  rw [swHashmapDestroy, if_neg hslots, htake]
  exact ⟨_, rfl, ((freeOld_spec m w).trans (.free _ _)).trans (.free _ _)⟩

theorem life_balanced {alloc : Alloc} (all : ∀ n, alloc n = true) (wf : m.WellFormed)
    (hcreate : swHashmapCreate alloc t size w = (some m₀, w₀))
    (h : Balanced m₀ w₀ m w₁ lost strange) :
    ∃ w', swHashmapDestroy w.calls (w.calls + 2) m w₁ = some w' ∧ w.freed <+: w'.freed ∧
      ∀ p, w'.freed.count p + lost.count p = w.freed.count p + (w.made w').count p + strange.count
      p := by
  obtain ⟨rfl, howns⟩ := create_owns all hcreate
  obtain ⟨w', hdestroy, hcalls, hfreed, hcount⟩ := swHashmapDestroy_spec wf
  refine ⟨w', hdestroy, h.freed.trans hfreed, ?_⟩
  intro p
  have hmade : w.made w' = [.block w.calls, .block (w.calls + 1), .block (w.calls + 2)] ++
      (⟨w.calls + 3, w.freed⟩ : Heap).made w₁ := by
    have hcreated : w.made ⟨w.calls + 3, w.freed⟩ =
        [.block w.calls, .block (w.calls + 1), .block (w.calls + 2)] := by
      simp [Heap.made, range']
    rw [← hcreated, ← made_append (Nat.le_add_right _ _) h.calls, Heap.made, Heap.made, hcalls]
  have hp := h.count p
  have hp' := hcount p
  have hm₀ := howns p
  rw [hmade]
  simp only [count_append, count_cons, count_nil] at hp hp' hm₀ ⊢
  omega

theorem freedOnce_of_count (hfreed : w.freed <+: w'.freed)
    (h : ∀ p, w'.freed.count p = w.freed.count p + (w.made w').count p) : FreedOnce w w' := by
  obtain ⟨freed, heq⟩ := hfreed
  refine ⟨freed, heq.symm, ?_⟩
  rw [perm_iff_count]
  intro p
  have hp := h p
  rw [← heq, count_append] at hp
  omega

theorem count_blocks {blocks : List Nat} {value : Value} :
    (blocks.map Freed.block).count (.value value) = 0 := by
  rw [count_eq_zero]
  intro hmem
  obtain ⟨block, -, heq⟩ := mem_map.1 hmem
  cases heq

/-- From before its creation to behind its destruction a string map frees every block it
has allocated once, and nothing else, exactly when no step of the run removes a key that
is in the table. -/
theorem run_freedOnce_iff {alloc : Alloc} (all : ∀ n, alloc n = true) {size : Int}
    (hsize : size ≠ 0) (hbytes : size < 2^28) {w w₀ : Heap} {m₀ : Map .string}
    (hcreate : swHashmapCreate alloc .string size w = (some m₀, w₀))
    {history : List (Op .string × Status)} {s : Map .string × Heap}
    (run : Run (step alloc) Fits (m₀, w₀) history s) :
    ∃ w', swHashmapDestroy w.calls (w.calls + 2) s.1 s.2 = some w' ∧ (FreedOnce w w' ↔
        Run (step alloc) (fun s op => Fits s op ∧ Spares s op) (m₀, w₀) history s) := by
  have hclean := (create_fresh hsize hbytes hcreate).1.noDeleted
  have wf := (run_chained all hsize hbytes hcreate run).1
  obtain ⟨lost, strange, haccounts⟩ :
      ∃ lost strange, Accounts alloc (m₀, w₀) history s lost strange := by
    clear wf
    induction run with
    | start => exact ⟨[], [], .refl _ _, rfl, fun _ => .start, fun _ => hclean⟩
    | next run fits hs ih =>
      obtain ⟨lost, strange, h⟩ := ih
      obtain ⟨wf, chained⟩ := run_chained all hsize hbytes hcreate run
      exact h.step all wf chained fits hs
  obtain ⟨w', hdestroy, hfreed, hcount⟩ := life_balanced all wf hcreate haccounts.balanced
  refine ⟨w', hdestroy, ?_, ?_⟩
  · rintro ⟨freed, heq, hperm⟩
    apply haccounts.spared
    -- a value among the freed pointers is more than was ever allocated
    rw [eq_nil_iff_forall_not_mem]
    intro value hvalue
    have hp := hcount (.value value)
    have hfreed := hperm.count_eq (.value value)
    have hpos : 0 < (strange.map Freed.value).count (.value value) :=
      count_pos_iff.2 (mem_map_of_mem hvalue)
    have hlost : (lost.map Freed.block).count (.value value) = 0 := count_blocks
    rw [heq, count_append, Heap.made, count_blocks] at hp
    rw [Heap.made, count_blocks] at hfreed
    omega
  · intro hspared
    have hkept : Kept m₀ w₀ s.1 s.2 := by
      clear haccounts hcount hdestroy hfreed
      induction hspared with
      | start => exact .refl _ _
      | next hspared hguard hs ih =>
        have run := Run.mono (fun _ _ h => h.1) hspared
        have wf := (run_chained all hsize hbytes hcreate run).1
        exact (ih run wf).trans (kept_of_spares all wf hguard.1 hguard.2 hs)
    obtain ⟨w'', hdestroy', hfreed', hcount'⟩ := life_balanced all wf hcreate hkept
    cases some.inj (hdestroy.symm.trans hdestroy')
    apply freedOnce_of_count hfreed'
    intro p
    simpa using hcount' p

/-- Two keys in a table of one slot, which is doubled, and a removal that finds nothing. -/
theorem run_freedOnce_iff_doubling :
    ∃ (history : List (Op .string × Status)) (s : Map .string × Heap) (w' : Heap),
      swHashmapCreate (fun _ => true) .string 1 ⟨0, []⟩ = (some ⟨1, 0, [Slot.zero], 1⟩, ⟨3, []⟩) ∧
      exec (step fun _ => true) (fun s op => Fits s op ∧ Spares s op) (⟨1, 0, [Slot.zero], 1⟩,
        ⟨3, []⟩) [.put (some ⟨[97], by decide⟩) 10, .put (some ⟨[98], by decide⟩) 20,
         .remove (some ⟨[99], by decide⟩)] = some (history, s) ∧
      swHashmapDestroy 0 2 s.1 s.2 = some w' ∧ FreedOnce ⟨0, []⟩ w' := by
  have hcreate : swHashmapCreate (fun _ => true) .string 1 ⟨0, []⟩ =
      (some ⟨1, 0, [Slot.zero], 1⟩, ⟨3, []⟩) := rfl
  simp only [exists_and_left]
  refine ⟨hcreate, exists_exec (fun _ _ => True) (by decide +kernel) ?_⟩
  intro history s he _
  have hspared := Run.of_exec he
  obtain ⟨w', hdestroy, hiff⟩ := run_freedOnce_iff (fun _ => rfl) (by decide) (by decide) hcreate
    (Run.mono (fun _ _ h => h.1) hspared)
  exact ⟨w', hdestroy, hiff.2 hspared⟩

/-- One key is put and removed: the value 10 is handed to `free`, and block 3, the copy of
the key, never is. -/
theorem remove_frees_value : ∃ (history : List (Op .string × Status)) (s : Map .string × Heap),
      swHashmapCreate (fun _ => true) .string 1 ⟨0, []⟩ = (some ⟨1, 0, [Slot.zero], 1⟩, ⟨3, []⟩) ∧
      exec (step fun _ => true) Fits (⟨1, 0, [Slot.zero], 1⟩, ⟨3, []⟩)
        [.put (some ⟨[97], by decide⟩) 10, .remove (some ⟨[97], by decide⟩)] = some (history, s) ∧
      swHashmapDestroy 0 2 s.1 s.2 = some ⟨4, [.value 10, .block 1, .block 2, .block 0]⟩ ∧
      ¬FreedOnce ⟨0, []⟩ ⟨4, [.value 10, .block 1, .block 2, .block 0]⟩ := by
  refine exists_exec_and (fun _ s => (swHashmapDestroy 0 2 s.1 s.2).map
    (fun w => (w.calls, w.freed)) =
    some (4, [.value 10, .block 1, .block 2, .block 0])) (by decide +kernel) rfl ?_
  intro history s _ he hdestroyed
  obtain ⟨⟨calls, freed⟩, hdestroy, hpair⟩ := map_eq_some_iff.1 hdestroyed
  cases hpair
  refine ⟨hdestroy, ?_⟩
  rintro ⟨freed, heq, hperm⟩
  have hmem : Freed.value 10 ∈ (⟨0, []⟩ : Heap).made ⟨4, freed⟩ := by
    apply hperm.mem_iff.1
    rw [← nil_append freed, ← heq]
    exact mem_cons_self
  simp [Heap.made] at hmem

end SwApi.HashMap
