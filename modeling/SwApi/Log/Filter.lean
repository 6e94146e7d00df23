import SwApi.Log.Mods
import Mathlib.Data.Finset.Card

/-! The filter of modules against a plain set of keys. -/
namespace SwApi.Log
open Library List

def insertKey (keys : Finset Nat) (key : Nat) : Finset Nat :=
  if key ∈ keys ∨ keys.card < modsMax then insert key keys else keys

def replay (keys : Finset Nat) : Call → Finset Nat
  | .setMods names => (names.map ModName.key).foldl insertKey ∅
  | .addMod names => (names.map ModName.key).foldl insertKey keys
  | .delMod names => (names.map ModName.key).foldl Finset.erase keys
  | .clearAllmods => ∅

def Allowed (keys : Finset Nat) (name : ModName) : Prop := allMods ∈ keys ∨ name.key ∈ keys

variable {keys : Finset Nat}

theorem insertKey_insertKey (keys : Finset Nat) (key : Nat) :
    insertKey (insertKey keys key) key = insertKey keys key := by
  unfold insertKey
  by_cases h : key ∈ keys ∨ keys.card < modsMax
  · simp [if_pos h]
  · rw [if_neg h, if_neg h]

theorem foldl_same (hf : ∀ keys, f (f keys key) key = f keys key)
    (hlist : ∀ x ∈ list, x = key) (hne : list ≠ []) (keys : Finset Nat) :
    list.foldl f keys = f keys key := by
  induction list generalizing keys with
  | nil => exact absurd rfl hne
  | cons x list ih =>
    obtain rfl := hlist x mem_cons_self
    cases list with
    | nil => rfl
    | cons y list =>
      rw [foldl_cons, ih (forall_mem_cons.1 hlist).2 (cons_ne_nil _ _), hf]

theorem foldl_insertKey {list : List Nat} (hroom : keys.card + list.length ≤ modsMax) :
    list.foldl insertKey keys = keys ∪ list.toFinset := by
  induction list generalizing keys with
  | nil => simp
  | cons key list ih =>
    rw [length_cons] at hroom
    have hcard := Finset.card_insert_le key keys
    have hinsert : insertKey keys key = insert key keys := if_pos (.inr (by omega))
    rw [foldl_cons, hinsert, ih (by omega), toFinset_cons, Finset.insert_union, Finset.union_insert]

theorem ModName.key_ne_zero (name : ModName) : name.key ≠ 0 := by
  obtain ⟨bytes, hne, hplain⟩ := name
  cases bytes with
  | nil => exact absurd rfl hne
  | cons c bytes =>
    have hc : c ≠ 0 := fun h => hplain.1 (h ▸ mem_cons_self)
    have hpos : c.toNat ≠ 0 := fun h => hc (UInt8.toNat_inj.1 h)
    simp only [ModName.key, calcImod, getD_cons_zero]
    omega

theorem splitOn_textOf (hne : names ≠ []) : (textOf names).splitOn 44 =
    names.map ModName.bytes := by
  refine splitOn_intercalate 44 ?_ (by simpa using hne)
  intro bytes hbytes
  obtain ⟨name, -, rfl⟩ := mem_map.1 hbytes
  exact name.plain.2

/-- The entries of `m_mods_list` that are not zero are the keys, and `m_mods_num` counts them. -/
structure Holds (m : Mods) (keys : Finset Nat) : Prop where
  size : m.list.length = modsMax
  entries : ∀ key, key ∈ keys ↔ key ≠ 0 ∧ key ∈ m.list
  counted : m.num = m.list.countP (· ≠ 0)

/-- The array holds the keys, and the flag stands for one of them. -/
structure Refines (m : Mods) (keys : Finset Nat) : Prop where
  holds : Holds m keys
  flag : m.allAllowed = true ↔ allMods ∈ keys

theorem findLoop_eq {count : Nat} (hne : imod ≠ 0)
    (hnum : num = count + list.countP (· ≠ 0)) :
    findLoop imod num list count i = (list.idxOf? imod).map (· + i) := by
  induction list generalizing count i with
  | nil => rfl
  | cons x list ih =>
    rw [countP_cons] at hnum
    rw [findLoop]
    by_cases hcount : count < num
    · rw [if_pos hcount, idxOf?_cons]
      by_cases hx : x = imod
      · simp [hx]
      · have hrest : num = (if x ≠ 0 then count + 1 else count) + list.countP (· ≠ 0) := by
          rw [hnum]
          by_cases hzero : x = 0
          · simp [hzero]
          · simp [hzero]
            omega
        rw [if_neg hx, ih hrest, if_neg (by simpa using hx), Option.map_map]
        refine congrArg (fun f => Option.map f (list.idxOf? imod)) (funext fun j => ?_)
        exact (Nat.add_comm i 1 ▸ (Nat.add_assoc j 1 i).symm : j + (i + 1) = j + 1 + i)
    · -- Nothing but zeros is left.
      have hzero : (x :: list).countP (· ≠ 0) = 0 := by
        rw [countP_cons]
        omega
      have hnot : imod ∉ x :: list := fun hmem => by
        have h := countP_eq_zero.1 hzero imod hmem
        exact h (decide_eq_true hne)
      rw [if_neg hcount, idxOf?_eq_none_iff.2 hnot]
      rfl

section
variable (h : Holds m keys)
include h

theorem Holds.findImod (hkey : key ≠ 0) : m.findImod key = m.list.idxOf? key := by
  rw [Mods.findImod, findLoop_eq hkey (by rw [Nat.zero_add]; exact h.counted)]
  simp

theorem Holds.isSome_findImod (hkey : key ≠ 0) : (m.findImod key).isSome = true ↔ key ∈ keys := by
  rw [h.findImod hkey, isSome_idxOf?, h.entries]
  exact (and_iff_right hkey).symm

theorem Holds.of_eq (hlist : m'.list = m.list) (hnum : m'.num = m.num) : Holds m' keys :=
  ⟨by rw [hlist]; exact h.size, by rw [hlist]; exact h.entries,
    by rw [hlist, hnum]; exact h.counted⟩

theorem Holds.store (hkey : key ≠ 0) (hfree : m.list[m.num]? = some 0) :
    m.store key = some { m with list := m.list.set m.num key, num := m.num + 1 } ∧
      Holds { m with list := m.list.set m.num key, num := m.num + 1 } (insert key keys) := by
  obtain ⟨hlt, hzero⟩ := List.getElem?_eq_some_iff.1 hfree
  refine ⟨if_pos (h.size ▸ hlt), ?_, fun x => ?_, ?_⟩
  · rw [length_set]
    exact h.size
  · have hcount := count_set (a := key) (b := x) hlt
    rw [Finset.mem_insert, h.entries, ← count_pos_iff, ← count_pos_iff, hcount, hzero]
    by_cases hx : x = 0
    · simp [hx, hkey.symm]
    · by_cases heq : key = x
      · simp [heq, hx]
      · simp [hx, heq, Ne.symm hx, Ne.symm heq]
  · rw [countP_set hlt, hzero, h.counted]
    simp [hkey]

theorem Holds.remove (hkey : key ≠ 0) (honce : m.list.count key ≤ 1)
    (hfound : m.list.idxOf? key = some i) :
    Holds { m with list := m.list.set i 0, num := m.num - 1, info := info } (keys.erase key) := by
  obtain ⟨hlt, hi, -⟩ := idxOf?_eq_some_iff.1 hfound
  refine ⟨?_, fun x => ?_, ?_⟩
  · rw [length_set]
    exact h.size
  · have hcount := count_set (a := 0) (b := x) hlt
    rw [Finset.mem_erase, h.entries, ← count_pos_iff, ← count_pos_iff, hcount, hi]
    by_cases hx : x = 0
    · simp [hx]
    · by_cases heq : key = x
      · subst heq
        simp only [beq_self_eq_true, if_true, ne_eq, not_true_eq_false, false_and, false_iff,
          not_and]
        intro _
        simp [Ne.symm hkey]
        omega
      · simp [hx, heq, Ne.symm hx, Ne.symm heq]
  · rw [countP_set hlt, hi, h.counted]
    simp [hkey]

theorem Holds.card_le : keys.card ≤ m.num := by
  have hsub : keys ⊆ (m.list.filter fun x => decide (x ≠ 0)).toFinset := by
    intro x hx
    obtain ⟨hne, hmem⟩ := (h.entries x).1 hx
    simp [hne, hmem]
  have hle := (Finset.card_le_card hsub).trans (toFinset_card_le _)
  rwa [← countP_eq_length_filter, ← h.counted] at hle

theorem Holds.card_full (hfull : m.num = modsMax) (hnodup : m.list.Nodup) :
    keys.card = modsMax := by
  have hall : ∀ x ∈ m.list, x ≠ 0 := by
    have hcount : m.list.countP (· ≠ 0) = m.list.length := by rw [← h.counted, hfull, h.size]
    intro x hx
    exact of_decide_eq_true (countP_eq_length.1 hcount x hx)
  have hkeys : keys = m.list.toFinset := by
    ext x
    rw [h.entries, mem_toFinset]
    exact and_iff_right_of_imp (hall x)
  rw [hkeys, toFinset_card_of_nodup hnodup, h.size]

end

/-- There is an entry for the key: it has one, a zero is where it will be stored, or the array is
full of different keys and the key does not stand for all modules. -/
def Addable (m : Mods) (key : Nat) : Prop :=
  key ∈ m.list ∨ m.list[m.num]? = some 0 ∨ m.num = modsMax ∧ m.list.Nodup ∧ key ≠ allMods
  deriving Decidable

def Erasable (m : Mods) (mod : Bytes) : Prop :=
  m.targets = true → Url.strstr mod m.info = some 0 → (m.info.dropWhile (· ≠ 44)).drop 1 ≠ []
  deriving Decidable

def SameKey (names : List ModName) : Prop := names ≠ [] ∧
    ∀ name ∈ names, name.key = calcImod (textOf names)
  deriving Decidable

def Proper (m : Mods) : Call → Prop
  | .setMods names =>
      names.length ≤ modsMax ∧ (textOf names).length ≤ infoMax ∧
        (m.allAllowed = true → allMods ∈ names.map ModName.key)
  | .addMod names => SameKey names ∧ Addable m (calcImod (textOf names))
  | .delMod names => SameKey names ∧ m.list.count (calcImod (textOf names)) ≤ 1 ∧
    Erasable m (textOf names)
  | .clearAllmods => True

instance (m : Mods) (call : Call) : Decidable (Proper m call) := by
  unfold Proper
  split <;> infer_instance

section
variable {m : Mods}

theorem SameKey.ne_zero (h : SameKey names) : calcImod (textOf names) ≠ 0 := by
  obtain ⟨name, hname⟩ := exists_mem_of_ne_nil names h.1
  rw [← h.2 name hname]
  exact name.key_ne_zero

theorem SameKey.foldl (h : SameKey names)
    (hf : ∀ keys key, f (f keys key) key = f keys key) (keys : Finset Nat) :
    (names.map ModName.key).foldl f keys = f keys (calcImod (textOf names)) := by
  refine foldl_same (fun keys => hf keys _) ?_ (by simpa using h.1) keys
  intro x hx
  obtain ⟨name, hname, rfl⟩ := mem_map.1 hx
  exact h.2 name hname

theorem Refines.addMod (h : Refines m keys) (hkey : calcImod mod ≠ 0)
    (hadd : Addable m (calcImod mod)) :
    ∃ r, m.addMod mod = some r ∧ Refines r.2 (insertKey keys (calcImod mod)) := by
  have hholds : Holds { m with allAllowed := m.allAllowed || decide (calcImod mod = allMods) }
    keys := h.holds.of_eq rfl rfl
  have hfind := hholds.isSome_findImod hkey
  unfold Mods.addMod
  by_cases hin : calcImod mod ∈ keys
  · refine ⟨_, if_pos (hfind.2 hin), ?_⟩
    rw [insertKey, if_pos (.inl hin), Finset.insert_eq_of_mem hin]
    refine ⟨hholds, ?_⟩
    simp only [Bool.or_eq_true, decide_eq_true_eq, h.flag, or_iff_left_iff_imp]
    exact fun hall => hall ▸ hin
  · simp only [if_neg (mt hfind.1 hin)]
    rcases hadd with hmem | hfree | ⟨hfull, hnodup, hall⟩
    · exact absurd ((h.holds.entries _).2 ⟨hkey, hmem⟩) hin
    · obtain ⟨hlt, -⟩ := List.getElem?_eq_some_iff.1 hfree
      rw [h.holds.size] at hlt
      have hcard := h.holds.card_le
      have hinfo : Holds { m with
          allAllowed := m.allAllowed || decide (calcImod mod = allMods)
          info := Mods.infoWith m.info mod } keys := h.holds.of_eq rfl rfl
      obtain ⟨hstore, hstored⟩ := hinfo.store hkey hfree
      have hinsert : insertKey keys (calcImod mod) = insert (calcImod mod) keys :=
        if_pos (.inr (by omega))
      rw [if_neg (Nat.ne_of_lt hlt), hinsert, hstore]
      refine ⟨_, rfl, hstored, ?_⟩
      simp only [Bool.or_eq_true, decide_eq_true_eq, h.flag, Finset.mem_insert]
      rw [or_comm, eq_comm]
    · refine ⟨_, if_pos hfull, ?_⟩
      have hcard := h.holds.card_full hfull hnodup
      rw [insertKey, if_neg (by rw [hcard]; simp [hin])]
      refine ⟨hholds, ?_⟩
      simp only [hall, decide_false, Bool.or_false]
      exact h.flag

theorem infoWithout_isSome
    (h : targets = true → Url.strstr mod info = some 0 → (info.dropWhile (· ≠ 44)).drop 1 ≠ []) :
    ∃ info', Mods.infoWithout targets info mod = some info' := by
  unfold Mods.infoWithout
  cases hfound : Url.strstr mod info with
  | none => exact ⟨_, rfl⟩
  | some i =>
    simp only
    split
    · rename_i hend
      split
      · rename_i hi
        subst hi
        exact absurd hend.2 (h hend.1 hfound)
      · exact ⟨_, rfl⟩
    · exact ⟨_, rfl⟩

theorem Refines.delMod (h : Refines m keys) (hkey : calcImod mod ≠ 0)
    (honce : m.list.count (calcImod mod) ≤ 1)
    (hinfo : Erasable m mod) : ∃ r, m.delMod mod = some r ∧
    Refines r.2 (keys.erase (calcImod mod)) := by
  have hholds : Holds { m with allAllowed := m.allAllowed && decide (calcImod mod ≠ allMods) }
    keys := h.holds.of_eq rfl rfl
  have hflag : (m.allAllowed && decide (calcImod mod ≠ allMods)) = true ↔
    allMods ∈ keys.erase (calcImod mod) := by
    rw [Finset.mem_erase, Bool.and_eq_true, decide_eq_true_eq, h.flag, and_comm, ne_comm]
  simp only [Mods.delMod, hholds.findImod hkey]
  cases hfound : m.list.idxOf? (calcImod mod) with
  | none =>
    have hnot : calcImod mod ∉ keys := fun hmem =>
      absurd ((h.holds.entries _).1 hmem).2 (idxOf?_eq_none_iff.1 hfound)
    rw [Finset.erase_eq_of_notMem hnot] at hflag ⊢
    exact ⟨_, rfl, hholds, hflag⟩
  | some i =>
    obtain ⟨info, hwithout⟩ := infoWithout_isSome hinfo
    simp only [hwithout]
    exact ⟨_, rfl, hholds.remove hkey honce hfound, hflag⟩

theorem setLoop_names {names : List ModName} (h : Holds m keys)
    (hfresh : ∀ j, m.num ≤ j → j < modsMax → m.list[j]? = some 0)
    (hroom : m.num + names.length ≤ modsMax) :
    ∃ m', Mods.setLoop (names.map ModName.bytes) m = some m' ∧
    Holds m' (keys ∪ (names.map ModName.key).toFinset) ∧
      m'.allAllowed = (m.allAllowed || decide (allMods ∈ names.map ModName.key)) := by
  induction names generalizing m keys with
  | nil => exact ⟨m, rfl, by simpa using h, by simp⟩
  | cons name names ih =>
    rw [length_cons] at hroom
    obtain ⟨hstore, hstored⟩ := h.store name.key_ne_zero (hfresh m.num (Nat.le_refl _) (by omega))
    have hkey : calcImod (name.bytes.take 63) = name.key := by
      simp [ModName.key, calcImod, getD_eq_getElem?_getD]
    -- The loop goes on with the flag as the key has left it.
    have hnext : Holds { m with
        list := m.list.set m.num name.key
        num := m.num + 1
        allAllowed := m.allAllowed || decide (name.key = allMods) }
          (insert name.key keys) := hstored.of_eq rfl rfl
    have hzeros (j : Nat) (hj : m.num + 1 ≤ j) (hlt : j < modsMax) :
      (m.list.set m.num name.key)[j]? = some 0 := by
      rw [getElem?_set_ne (by omega)]
      exact hfresh j (by omega) hlt
    obtain ⟨m', hloop, hholds, hflag⟩ := ih hnext hzeros (by simp only; omega)
    refine ⟨m', ?_, ?_, ?_⟩
    · have hne : ¬(name.bytes = [] ∧ names.map ModName.bytes = []) :=
        fun hend => name.nonempty hend.1
      simp only [map_cons, Mods.setLoop, if_neg hne, hkey, hstore]
      exact hloop
    · rwa [map_cons, toFinset_cons, Finset.union_insert, ← Finset.insert_union]
    · rw [hflag, map_cons]
      simp [Bool.or_assoc, eq_comm]

theorem holds_empty (hlist : m.list = replicate modsMax 0) (hnum : m.num = 0) : Holds m ∅ := by
  refine ⟨by rw [hlist, length_replicate], fun key => ?_, ?_⟩
  · rw [hlist]
    exact ⟨fun h => absurd h (Finset.notMem_empty key),
      fun h => absurd (eq_of_mem_replicate h.2) h.1⟩
  · rw [hnum, hlist, countP_replicate]
    rfl

theorem setMods_refines {names : List ModName} (hlength : names.length ≤ modsMax)
    (htext : (textOf names).length ≤ infoMax)
    (hflag : m.allAllowed = true → allMods ∈ names.map ModName.key) :
    ∃ r, m.setMods (textOf names) = some r ∧ Refines r.2 (names.map ModName.key).toFinset := by
  have hempty : Holds { m with num := 0, info := textOf names, list := replicate modsMax 0 } ∅ :=
    holds_empty rfl rfl
  have hloop : ∃ m', Mods.setLoop ((textOf names).splitOn 44)
        { m with num := 0, info := textOf names, list := replicate modsMax 0 } = some m' ∧
      Holds m' (∅ ∪ (names.map ModName.key).toFinset) ∧
      m'.allAllowed = (m.allAllowed || decide (allMods ∈ names.map ModName.key)) := by
    by_cases hne : names = []
    · subst hne
      exact ⟨_, rfl, by simpa using hempty, by simp⟩
    · rw [splitOn_textOf hne]
      exact setLoop_names hempty (fun j _ hlt => getElem?_replicate_of_lt hlt)
        (by simpa using hlength)
  obtain ⟨m', hloop, hholds, hall⟩ := hloop
  rw [Finset.empty_union] at hholds
  simp only [Mods.setMods, take_of_length_le htext, hloop]
  refine ⟨_, rfl, hholds, ?_⟩
  rw [hall, Bool.or_eq_true, decide_eq_true_eq, mem_toFinset]
  exact or_iff_right_of_imp hflag

theorem Refines.step (h : Refines m keys) {call : Call} (hcall : Proper m call) :
    ∃ r, m.step call = some r ∧ Refines r.2 (replay keys call) := by
  cases call with
  | setMods names =>
    obtain ⟨hlength, htext, hflag⟩ := hcall
    rw [replay, foldl_insertKey (by simpa using hlength), Finset.empty_union]
    exact setMods_refines hlength htext hflag
  | addMod names =>
    obtain ⟨hsame, hadd⟩ := hcall
    rw [replay, hsame.foldl insertKey_insertKey]
    exact h.addMod hsame.ne_zero hadd
  | delMod names =>
    obtain ⟨hsame, honce, hinfo⟩ := hcall
    rw [replay, hsame.foldl fun keys key => Finset.erase_idem]
    exact h.delMod hsame.ne_zero honce hinfo
  | clearAllmods => exact ⟨_, rfl, holds_empty rfl rfl, by simp [Mods.clearAllmods, replay]⟩

theorem Refines.logModIsAllowed (h : Refines m keys) (name : ModName) :
    m.logModIsAllowed name.bytes = true ↔ Allowed keys name := by
  have hfind : (m.findImod (calcImod name.bytes)).isSome = true ↔ name.key ∈ keys :=
    h.holds.isSome_findImod name.key_ne_zero
  rw [Mods.logModIsAllowed, Bool.or_eq_true, h.flag, hfind]
  rfl

end

/-- After every sequence of proper calls, the modules that are allowed are those of the set,
`m_mods_num` counts the entries, and the next proper call returns. -/
theorem allowed_iff_replayed {targets : Bool} {history : List (Call × Int)} {m : Mods}
    (h : Run Mods.step Proper (Mods.init targets) history m) :
    (∀ name : ModName, m.logModIsAllowed name.bytes = true ↔
    Allowed ((history.map Prod.fst).foldl replay ∅) name) ∧
      m.num = m.list.countP (· ≠ 0) ∧ ∀ call, Proper m call → (m.step call).isSome = true := by
  have hrefines : Refines m ((history.map Prod.fst).foldl replay ∅) := by
    refine h.invariant (fun history m => Refines m ((history.map Prod.fst).foldl replay ∅)) ?_ ?_
    · exact ⟨holds_empty rfl rfl, by simp [Mods.init]⟩
    · intro history m call ret m' hm hcall hstep
      obtain ⟨r, hr, hnext⟩ := hm.step hcall
      rw [hstep] at hr
      cases hr
      rw [map_append, foldl_append]
      exact hnext
  refine ⟨hrefines.logModIsAllowed, hrefines.holds.counted, fun call hcall => ?_⟩
  obtain ⟨r, hr, -⟩ := hrefines.step hcall
  rw [hr]
  rfl

def modA : ModName := ⟨[97], by simp, by simp⟩

def modB : ModName := ⟨[98], by simp, by simp⟩

def modC : ModName := ⟨[67], by simp, by simp⟩

theorem allowed_iff_replayed_three : ∃ history m, Run Mods.step Proper (Mods.init true) history m ∧
    m.num = 2 ∧
    ∀ name : ModName, m.logModIsAllowed name.bytes = true ↔
    Allowed ((history.map Prod.fst).foldl replay ∅) name := by
  refine exists_run [.setMods [modA, modB], .addMod [modC], .delMod [modC]] (fun _ m => m.num = 2)
    (by decide +kernel) ?_
  intro history m hrun hnum
  exact ⟨hnum, (allowed_iff_replayed hrun).1⟩

/-- The modules `a` and `b` are added, `a` is deleted and `c` is added: `c` is stored over `b`. -/
theorem hole_loses_a_module : ∃ history m, Run Mods.step (fun _ _ => True)
    (Mods.init true) history m ∧
    Allowed ((history.map Prod.fst).foldl replay ∅) modB ∧
    m.logModIsAllowed modB.bytes = false := by
  refine exists_run [.addMod [modA], .addMod [modB], .delMod [modA], .addMod [modC]]
    (fun history m =>
    modB.key ∈ (history.map Prod.fst).foldl replay ∅ ∧ m.logModIsAllowed modB.bytes = false)
      (by decide +kernel) ?_
  rintro history m - ⟨hallowed, hrefused⟩
  exact ⟨.inr hallowed, hrefused⟩

end SwApi.Log
