import Mathlib.Data.List.Dedup
import Mathlib.Data.List.MinMax
import SwApi.Parameter.Store

/-! Depots of different types may be registered in any order: the table against the function that
gives each name its value and its owner. -/
namespace SwApi.Parameter
open Library List Option Function

structure Registration where
  depot : Depot
  isdefault : Bool
  loaded : List (CString × CString)

def registerAll (alloc : Alloc) : Table → List Registration → Option Table
  | t, [] => some t
  | t, r :: rest => do
      let (_, t) ← swParameterRegisterDepot alloc t r.depot r.isdefault
        (r.loaded.map fun e => (e.1, some e.2))
      registerAll alloc t rest

def Table.assigned (t : Table) (name : CString) : Option (CString × Depot) := do
  let i ← (← swParameterFind t name)
  let value ← (t.plist i).value
  let depot ← (t.plist i).depot
  some (value, depot)

def lastValue (loaded : List (CString × CString)) (key : List Nat) : Option CString :=
  (loaded.filter (·.1.fold == key)).getLast?.map (·.2)

/-- The depot of the smallest type whose list contains the name, with its last value. -/
def Owns (regs : List Registration) (name : CString) (value : CString) (d : Depot) : Prop :=
  ∃ r ∈ regs, r.depot = d ∧ lastValue r.loaded name.fold = some value ∧
    ∀ r' ∈ regs, (∃ e ∈ r'.loaded, e.1.fold = name.fold) → d.type.toNat ≤ r'.depot.type.toNat

abbrev Owners := List Nat → Option (CString × Depot)

def prefer (d : Depot) (value : CString) : Option (CString × Depot) → CString × Depot
  | none => (value, d)
  | some (old, own) => if own ≠ d ∧ own.type.toNat ≤ d.type.toNat then (old, own) else (value, d)

def Owners.offer (d : Depot) (f : Owners) (e : CString × CString) : Owners :=
  update f e.1.fold (some (prefer d e.2 (f e.1.fold)))

theorem lastValue_concat :
    lastValue (loaded ++ [e]) key = if e.1.fold = key then some e.2 else lastValue loaded key := by
  by_cases h : e.1.fold = key <;> simp [lastValue, filter_append, h]

theorem lastValue_isSome_iff : (∃ v, lastValue loaded key = some v) ↔
    ∃ e ∈ loaded, e.1.fold = key := by
  induction loaded using reverseRecOn with
  | nil => simp [lastValue]
  | append_singleton loaded e ih =>
    rw [lastValue_concat]
    split
    · rename_i h
      exact ⟨fun _ => ⟨e, by simp, h⟩, fun _ => ⟨e.2, rfl⟩⟩
    · rename_i h
      rw [ih]
      simp [h]

theorem foldl_offer : loaded.foldl (Owners.offer d) f key = match lastValue loaded key with
      | none => f key
      | some v => some (prefer d v (f key)) := by
  induction loaded using reverseRecOn with
  | nil => rfl
  | append_singleton loaded e ih =>
    rw [foldl_append, foldl_cons, foldl_nil, Owners.offer, lastValue_concat]
    by_cases h : e.1.fold = key
    · subst h
      rw [update_self, if_pos rfl, ih]
      cases lastValue loaded e.1.fold with
      | none => rfl
      | some v =>
        -- an earlier offer of the same depot is replaced, or was refused for the same reason
        congr 1
        cases hf : f e.1.fold with
        | none => simp [prefer]
        | some old =>
          simp only [prefer]
          split <;> simp
    · rw [update_of_ne (Ne.symm h), if_neg h, ih]

def candidates (regs : List Registration) (key : List Nat) : List (CString × Depot) :=
  regs.filterMap fun r => (lastValue r.loaded key).map fun v => (v, r.depot)

def winner (regs : List Registration) : Owners :=
  fun key => (candidates regs key).argmin fun c => c.2.type.toNat

theorem mem_candidates : (v, d) ∈ candidates regs key ↔
    ∃ r ∈ regs, r.depot = d ∧ lastValue r.loaded key = some v := by
  rw [candidates, mem_filterMap]
  constructor
  · rintro ⟨r, hr, hv⟩
    obtain ⟨v', hv', heq⟩ := map_eq_some_iff.1 hv
    cases heq
    exact ⟨r, hr, rfl, hv'⟩
  · rintro ⟨r, hr, rfl, hv⟩
    exact ⟨r, hr, by rw [hv]; rfl⟩

theorem DepotType.toNat_inj {a b : DepotType} (h : a.toNat = b.toNat) : a = b := by
  cases a <;> cases b <;> first | rfl | exact absurd h (by decide)

theorem winner_concat (hnew : ∀ r' ∈ regs, r'.depot.type ≠ r.depot.type) :
    winner (regs ++ [r]) = r.loaded.foldl (Owners.offer r.depot) (winner regs) := by
  funext key
  rw [foldl_offer, winner, candidates, filterMap_append]
  change List.argmin _ (candidates regs key ++ _) = _
  cases hlast : lastValue r.loaded key with
  | none =>
    rw [filterMap_cons_none (by rw [hlast]; rfl), filterMap_nil, append_nil]
    rfl
  | some v =>
    rw [filterMap_cons_some (by rw [hlast]; rfl), filterMap_nil, argmin_concat]
    change _ = some (prefer r.depot v (List.argmin _ (candidates regs key)))
    cases hwinner : (candidates regs key).argmin fun c => c.2.type.toNat with
    | none => rfl
    | some c =>
      obtain ⟨old, own⟩ := c
      obtain ⟨r', hr', rfl, -⟩ := mem_candidates.1 (argmin_mem hwinner)
      have htype := hnew r' hr'
      have hrank : r'.depot.type.toNat ≠ r.depot.type.toNat := mt DepotType.toNat_inj htype
      have hdepot : r'.depot ≠ r.depot := fun h => htype (by rw [h])
      dsimp only [prefer]
      split
      · rw [if_neg (by omega)]
      · rw [if_pos ⟨hdepot, by omega⟩]

theorem winner_eq_some_iff (htypes : (regs.map (·.depot.type)).Nodup) :
    winner regs name.fold = some (v, d) ↔ Owns regs name v d := by
  have hlists {r' : Registration} (hr' : r' ∈ regs) (hlisted : ∃ e ∈ r'.loaded,
    e.1.fold = name.fold) : ∃ v', (v', r'.depot) ∈ candidates regs name.fold := by
    obtain ⟨v', hv'⟩ := lastValue_isSome_iff.2 hlisted
    exact ⟨v', mem_candidates.2 ⟨r', hr', rfl, hv'⟩⟩
  constructor
  · intro hwinner
    obtain ⟨r, hr, hd, hv⟩ := mem_candidates.1 (argmin_mem hwinner)
    refine ⟨r, hr, hd, hv, ?_⟩
    intro r' hr' hlisted
    obtain ⟨v', hmem⟩ := hlists hr' hlisted
    have hle := le_of_mem_argmin hmem hwinner
    exact hle
  · rintro ⟨r, hr, rfl, hv, hmin⟩
    have hmem := mem_candidates.2 ⟨r, hr, rfl, hv⟩
    cases hwinner : winner regs name.fold with
    | none =>
      rw [argmin_eq_none.1 hwinner] at hmem
      cases hmem
    | some c =>
      obtain ⟨v', d'⟩ := c
      obtain ⟨r', hr', rfl, hv'⟩ := mem_candidates.1 (argmin_mem hwinner)
      have hle := le_of_mem_argmin hmem hwinner
      have hge := hmin r' hr' (lastValue_isSome_iff.1 ⟨v', hv'⟩)
      have hsame : r' = r := inj_on_of_nodup_map htypes hr' hr
        (DepotType.toNat_inj (le_antisymm hle hge))
      subst hsame
      cases some.inj (hv'.symm.trans hv)
      rfl

theorem winner_eq_none_iff : winner regs key = none ↔ ∀ r ∈ regs, ∀ e ∈ r.loaded,
    e.1.fold ≠ key := by
  rw [winner, argmin_eq_none, candidates, filterMap_eq_nil_iff]
  refine forall₂_congr fun r _ => ?_
  rw [map_eq_none_iff, ← not_isSome_iff_eq_none, isSome_iff_exists, lastValue_isSome_iff]
  push Not
  rfl

structure Reflects (t : Table) (f : Owners) : Prop where
  wellFormed : WellFormed t
  writable : ∀ p ∈ t.entries, p.readonly = false
  sound : ∀ p ∈ t.entries, ∃ v d, p.value = some v ∧ p.depot = some d ∧ f p.key = some (v, d)
  complete : ∀ key, f key ≠ none → ∃ p ∈ t.entries, p.key = key

section
variable {name : CString}

section
variable (h : Reflects t f)
include h

theorem Reflects.eq_none (hmissing : ∀ p ∈ t.entries, p.key ≠ key) : f key = none := by
  by_contra hsome
  obtain ⟨p, hp, hkey⟩ := h.complete _ hsome
  exact hmissing p hp hkey

theorem Reflects.assigned_eq (name : CString) : t.assigned name = f name.fold := by
  rcases h.wellFormed.find name with ⟨i, hfind, hi, hkey⟩ | ⟨hfind, hmissing⟩
  · obtain ⟨v, d, hv, hd, hf⟩ := h.sound _ (t.mem_entries hi)
    rw [← hkey, hf]
    simp [Table.assigned, hfind, hv, hd]
  · rw [h.eq_none hmissing]
    simp [Table.assigned, hfind]

theorem Reflects.find_none_iff :
    swParameterFind t name = some none ↔ f name.fold = none := by
  rcases h.wellFormed.find name with ⟨i, hfind, hi, hkey⟩ | ⟨hfind, hmissing⟩
  · obtain ⟨v, d, -, -, hf⟩ := h.sound _ (t.mem_entries hi)
    rw [hfind, ← hkey, hf]
    simp
  · rw [hfind, h.eq_none hmissing]
    simp

theorem Reflects.same (hs : SameParas t t') : Reflects t' f := by
  refine ⟨hs.wellFormed h.wellFormed, ?_, ?_, ?_⟩
  all_goals rw [hs.entries]
  exacts [h.writable, h.sound, h.complete]

theorem Reflects.setPara (hi : i < t.pnum)
    (hname : p.name = (t.plist i).name) (hvalue : p.value = some value) (hdepot : p.depot = some d)
    (hreadonly : p.readonly = false) :
    Reflects (t.setPara i p) (update f (t.plist i).key (some (value, d))) := by
  have hkey : p.key = (t.plist i).key := by rw [Para.key, hname]; rfl
  have hmem : p ∈ (t.setPara i p).entries := by
    rw [Table.entries_setPara]
    exact mem_set (by rw [t.entries_length]; exact hi) _
  have hslots {q : Para} (hq : q ∈ (t.setPara i p).entries) :
      q = p ∨ q ∈ t.entries ∧ q.key ≠ (t.plist i).key := by
    obtain ⟨k, hk, rfl⟩ := mem_cells.1 hq
    by_cases hki : k = i
    · subst hki
      exact .inl (update_self ..)
    · right
      change k < t.pnum at hk
      have hslot : (t.setPara i p).plist k = t.plist k := update_of_ne hki _ _
      rw [hslot]
      exact ⟨t.mem_entries hk, fun heq => hki (h.wellFormed.eq_of_key hk hi heq)⟩
  refine ⟨h.wellFormed.setPara hi hname ⟨d, hdepot⟩, ?_, ?_, ?_⟩
  · intro q hq
    rcases hslots hq with rfl | ⟨hold, -⟩
    · exact hreadonly
    · exact h.writable q hold
  · intro q hq
    rcases hslots hq with rfl | ⟨hold, hne⟩
    · exact ⟨value, d, hvalue, hdepot, by rw [hkey, update_self]⟩
    · rw [update_of_ne hne]
      exact h.sound q hold
  · intro key hsome
    by_cases heq : key = (t.plist i).key
    · exact ⟨p, hmem, hkey.trans heq.symm⟩
    · rw [update_of_ne heq] at hsome
      obtain ⟨q, hq, hqkey⟩ := h.complete key hsome
      obtain ⟨k, hk, rfl⟩ := mem_cells.1 hq
      have hki : k ≠ i := by
        rintro rfl
        exact heq hqkey.symm
      have hslot : (t.setPara i p).plist k = t.plist k := update_of_ne hki _ _
      refine ⟨t.plist k, ?_, hqkey⟩
      rw [← hslot]
      exact (t.setPara i p).mem_entries hk

theorem Reflects.append (hnew : ∀ q ∈ t.entries, q.key ≠ name.fold)
    (hroom : t.pnum < maxParaNum) (hname : p.name = some name)
    (hvalue : p.value = some value) (hdepot : p.depot = some d) (hreadonly : p.readonly = false) :
    ∃ t', t.append p = some t' ∧ t'.depots = t.depots ∧
    Reflects t' (update f name.fold (some (value, d))) := by
  have hkey : p.key = name.fold := key_of_name hname
  obtain ⟨k, t', happend, hwf, -, hentries, hdepots, -⟩ :=
    h.wellFormed.append hname ⟨d, hdepot⟩ hnew hroom
  refine ⟨t', happend, hdepots, hwf, ?_, ?_, ?_⟩
  all_goals simp only [hentries, mem_insert_iff, forall_eq_or_imp]
  · exact ⟨hreadonly, h.writable⟩
  · refine ⟨⟨value, d, hvalue, hdepot, by rw [hkey, update_self]⟩, fun q hq => ?_⟩
    rw [update_of_ne (hnew q hq)]
    exact h.sound q hq
  · intro key hsome
    by_cases heq : key = name.fold
    · exact ⟨p, .inl rfl, hkey.trans heq.symm⟩
    · rw [update_of_ne heq] at hsome
      obtain ⟨q, hq, hqkey⟩ := h.complete key hsome
      exact ⟨q, .inr hq, hqkey⟩

end

theorem notRaised_eq (hown : p.depot = some own) :
    notRaised p (some d) = some (own ≠ d ∧ own.type.toNat ≤ d.type.toNat : Bool) := by
  rw [notRaised, hown]
  by_cases heq : own = d <;> simp [heq]

section
variable {alloc : Alloc} (halloc : ∀ k, alloc k = true) (h : Reflects t f)
include halloc h

theorem Reflects.loadFound (hi : i < t.pnum)
    (value : CString) (d : Depot) : ∃ r t', setFound alloc t i (some value) (some d) true false =
      some (r, t') ∧ t'.depots = t.depots ∧
      Reflects t' (update f (t.plist i).key (some (prefer d value (f (t.plist i).key)))) := by
  obtain ⟨old, own, hold, hown, hf⟩ := h.sound _ (t.mem_entries hi)
  have hopen := h.writable _ (t.mem_entries hi)
  have hlocked : writeProtected (t.plist i) = some false := by rw [writeProtected, hopen]; rfl
  have hhanded : handedOn (t.plist i) true = some false := rfl
  simp only [setFound, hlocked, notRaised_eq hown, hhanded, bind_eq_bind, bind_some,
    Bool.false_and, Bool.false_eq_true, if_false, if_true, decide_eq_true_eq, some_or, isJava,
    map_some]
  rw [hf, prefer]
  split
  · refine ⟨false, t, rfl, rfl, ?_⟩
    rw [← hf, update_eq_self]
    exact h
  · split
    · rename_i hsame
      refine ⟨true, t, rfl, rfl, ?_⟩
      have hpair : (old, own) = (value, d) := by
        simp only [hold, hown, Bool.and_eq_true, beq_iff_eq, some.injEq, Bool.or_eq_true,
          reduceCtorEq, false_or] at hsame
        rw [hsame.1, hsame.2]
      rw [← hpair, ← hf, update_eq_self]
      exact h
    · have hs := (attempts_storeValue alloc t (t.plist i).value value).same
      have hv := storeValue_eq halloc t (t.plist i).value value
      generalize storeValue alloc t (t.plist i).value value = stored at hs hv
      refine ⟨true, _, rfl, hs.depots, ?_⟩
      have hset := (h.same hs).setPara (i := i) (p := { t.plist i with
          value := stored.1, depot := some d, realtime := d.type == .java || (t.plist i).realtime })
        (by rw [hs.pnum]; exact hi) (by rw [hs.plist]) hv rfl hopen
      rw [hs.plist] at hset
      exact hset

theorem Reflects.loadNew
    (hnew : ∀ q ∈ t.entries, q.key ≠ name.fold) (hroom : t.pnum < maxParaNum)
    (hshort : name.strlen < 256) (value : CString) (d : Depot) :
    ∃ r t', setNew alloc t name (some value) (some d) true = some (r, t') ∧ t'.depots = t.depots ∧
      Reflects t' (update f name.fold (some (value, d))) := by
  let t₁ : Table := { t with allocs := t.allocs + 1 + 1 }
  have hs : SameParas t t₁ := ⟨rfl, rfl, rfl, rfl⟩
  obtain ⟨t', happend, hdepots, ht'⟩ := (h.same hs).append
    (p := ⟨some name, some value, false, d.type == .java || (t₁.plist t₁.pnum).realtime, some d⟩)
    hnew hroom rfl rfl rfl rfl
  refine ⟨true, t', ?_, hdepots, ht'⟩
  rw [setNew, if_pos ⟨hroom, hshort⟩]
  simp only [strdup_eq halloc, dupValue, some_or, if_true, isJava, map_some,
    bind_eq_bind, bind_some]
  simp only [t₁] at happend
  rw [happend]
  rfl

theorem Reflects.load (hshort : name.strlen < 256)
    (hroom : (∀ q ∈ t.entries, q.key ≠ name.fold) → t.pnum < maxParaNum) (value : CString)
    (d : Depot) :
    ∃ r t', swParameterSetWithDepot alloc t name (some value) (some d) true false = some (r, t') ∧
      t'.depots = t.depots ∧ Reflects t' (Owners.offer d f (name, value)) := by
  rw [swParameterSetWithDepot, Owners.offer]
  rcases h.wellFormed.find name with ⟨i, hfind, hi, hkey⟩ | ⟨hfind, hnew⟩
  · rw [hfind]
    have hload := h.loadFound halloc hi value d
    rw [hkey] at hload
    exact hload
  · rw [hfind, h.eq_none hnew]
    exact h.loadNew halloc hnew (hroom hnew) hshort value d

end

theorem Reflects.room {keys : List (List Nat)} (h : Reflects t f)
    (hkeys : ∀ key, f key ≠ none → key ∈ keys) (hbound : keys.dedup.length ≤ maxParaNum)
    (hname : name.fold ∈ keys) (hnew : ∀ q ∈ t.entries, q.key ≠ name.fold) :
    t.pnum < maxParaNum := by
  have hnodup : (name.fold :: t.entries.map Para.key).Nodup := by
    rw [nodup_cons]
    constructor
    · intro hmem
      obtain ⟨q, hq, hkey⟩ := mem_map.1 hmem
      exact hnew q hq hkey
    · exact h.wellFormed.increasing.imp fun hlt => ne_of_lt hlt
  have hsub : name.fold :: t.entries.map Para.key ⊆ keys.dedup := by
    intro key hkey
    rw [mem_dedup]
    rcases mem_cons.1 hkey with rfl | hkey
    · exact hname
    · obtain ⟨q, hq, rfl⟩ := mem_map.1 hkey
      obtain ⟨v, d, -, -, hf⟩ := h.sound q hq
      exact hkeys _ (by rw [hf]; exact some_ne_none _)
  have hlen := (subperm_of_subset hnodup hsub).length_le
  rw [length_cons, length_map, t.entries_length] at hlen
  omega

theorem Reflects.spreadAll {keys : List (List Nat)} (halloc : ∀ k, alloc k = true)
    (hbound : keys.dedup.length ≤ maxParaNum) (d : Depot) (loaded : List (CString × CString))
    (hloaded : ∀ e ∈ loaded, e.1.strlen < 256 ∧ e.1.fold ∈ keys) (h : Reflects t f)
    (hkeys : ∀ key, f key ≠ none → key ∈ keys) :
    ∃ t', spreadAll alloc d t (loaded.map fun e => (e.1, some e.2)) = some t' ∧
      t'.depots = t.depots ∧ Reflects t' (loaded.foldl (Owners.offer d) f) ∧
      ∀ key, loaded.foldl (Owners.offer d) f key ≠ none → key ∈ keys := by
  induction loaded generalizing t f with
  | nil => exact ⟨t, rfl, rfl, h, hkeys⟩
  | cons e rest ih =>
    obtain ⟨hshort, hname⟩ := hloaded e (mem_cons_self ..)
    obtain ⟨r, t₁, hset, hdepots₁, h₁⟩ := h.load halloc hshort (h.room hkeys hbound hname) e.2 d
    have hkeys₁ : ∀ key, Owners.offer d f (e.1, e.2) key ≠ none → key ∈ keys := by
      intro key hsome
      by_cases heq : key = e.1.fold
      · rw [heq]
        exact hname
      · rw [Owners.offer, update_of_ne heq] at hsome
        exact hkeys key hsome
    obtain ⟨t₂, hrest, hdepots₂, h₂, hkeys₂⟩ :=
      ih (forall_mem_cons.1 hloaded).2 h₁ hkeys₁
    refine ⟨t₂, ?_, hdepots₂.trans hdepots₁, h₂, hkeys₂⟩
    rw [map_cons, Parameter.spreadAll, setAll, hset]
    exact hrest

end

section
variable {alloc : Alloc} {regs : List Registration} {keys : List (List Nat)}

structure Loaded (keys : List (List Nat)) (done : List Registration) (t : Table) : Prop where
  depots : t.depots = done.map (·.depot)
  reflects : Reflects t (winner done)
  names : ∀ key, winner done key ≠ none → key ∈ keys

theorem length_le_of_types (htypes : (regs.map (·.depot.type)).Nodup) : regs.length ≤ 4 := by
  have hsub : regs.map (·.depot.type) ⊆ [.e2prom, .java, .flash, .file] := by
    intro type _
    cases type <;> simp
  have hlen := (subperm_of_subset htypes hsub).length_le
  rwa [length_map] at hlen

theorem Loaded.register (halloc : ∀ k, alloc k = true) (hbound : keys.dedup.length ≤ maxParaNum)
    (h : Loaded keys done t) (htypes : ((done ++ [r]).map (·.depot.type)).Nodup)
    (hloaded : ∀ e ∈ r.loaded, e.1.strlen < 256 ∧ e.1.fold ∈ keys) :
    ∃ t', swParameterRegisterDepot alloc t r.depot r.isdefault
      (r.loaded.map fun e => (e.1, some e.2)) = some (true, t') ∧ Loaded keys (done ++ [r]) t' := by
  have hnew : ∀ r' ∈ done, r'.depot.type ≠ r.depot.type := by
    intro r' hr' heq
    rw [map_append, nodup_append] at htypes
    exact htypes.2.2 _ (mem_map_of_mem hr') _ (mem_singleton_self _) heq
  have hunknown : r.depot ∉ t.depots := by
    intro hmem
    rw [h.depots] at hmem
    obtain ⟨r', hr', heq⟩ := mem_map.1 hmem
    exact hnew r' hr' (by rw [heq])
  have hroom : ¬maxDepotNum ≤ t.depots.length := by
    have hlen := length_le_of_types htypes
    rw [length_append] at hlen
    rw [h.depots, length_map, maxDepotNum]
    omega
  generalize hdefault : (if r.isdefault || t.defdepot == none then some r.depot else t.defdepot) =
    defdepot
  let t₁ : Table := { t with depots := t.depots ++ [r.depot], defdepot }
  have h₁ : Reflects t₁ (winner done) :=
    ⟨h.reflects.wellFormed.sublist (Sublist.refl t.entries), h.reflects.writable,
    h.reflects.sound, h.reflects.complete⟩
  obtain ⟨t', hspread, hdepots, ht', hnames⟩ :=
    h₁.spreadAll halloc hbound r.depot r.loaded hloaded h.names
  rw [← winner_concat hnew] at ht' hnames
  refine ⟨t', ?_, ?_, ht', hnames⟩
  · rw [swParameterRegisterDepot, if_neg hunknown, if_neg hroom, hdefault]
    exact congrArg (fun r => r.bind fun t => some (true, t)) hspread
  · rw [hdepots, map_append, ← h.depots]
    rfl

theorem Loaded.registerAll (halloc : ∀ k, alloc k = true) (hbound : keys.dedup.length ≤ maxParaNum)
    (rest : List Registration) (h : Loaded keys done t)
    (htypes : ((done ++ rest).map (·.depot.type)).Nodup)
    (hloaded : ∀ r ∈ rest, ∀ e ∈ r.loaded, e.1.strlen < 256 ∧ e.1.fold ∈ keys) :
    ∃ t', registerAll alloc t rest = some t' ∧ Loaded keys (done ++ rest) t' := by
  induction rest generalizing done t with
  | nil =>
    rw [append_nil]
    exact ⟨t, rfl, h⟩
  | cons r rest ih =>
    have hsplit : done ++ r :: rest = (done ++ [r]) ++ rest := by simp
    rw [hsplit] at htypes ⊢
    have hfirst : ((done ++ [r]).map (·.depot.type)).Nodup := by
      rw [map_append, nodup_append] at htypes
      exact htypes.1
    obtain ⟨t₁, hregister, h₁⟩ := h.register halloc hbound hfirst (hloaded r (mem_cons_self ..))
    obtain ⟨t₂, hrest, h₂⟩ := ih h₁ htypes (forall_mem_cons.1 hloaded).2
    refine ⟨t₂, ?_, h₂⟩
    rw [Parameter.registerAll, hregister]
    exact hrest

theorem loaded_init : Loaded keys [] swParameterInit := by
  exact ⟨rfl, ⟨ready_init.wellFormed, forall_mem_nil _, forall_mem_nil _,
    fun _ hsome => absurd rfl hsome⟩, fun _ hsome => absurd rfl hsome⟩

/-- Whatever the order in which the depots are registered, each name belongs to the depot of the
smallest type whose list contains it, with the last value of that list. -/
theorem registerAll_owners (halloc : ∀ k, alloc k = true) {regs' : List Registration}
    (hperm : regs'.Perm regs) (htypes : (regs.map (·.depot.type)).Nodup)
    (hshort : ∀ r ∈ regs, ∀ e ∈ r.loaded, e.1.strlen < 256)
    (hroom : (regs.flatMap fun r => r.loaded.map (·.1.fold)).dedup.length ≤ maxParaNum) :
    ∃ t, registerAll alloc swParameterInit regs' = some t ∧
      (∀ name value d, t.assigned name = some (value, d) ↔ Owns regs name value d) ∧
      ∀ name, swParameterFind t name = some none ↔ ∀ r ∈ regs, ∀ e ∈ r.loaded,
      e.1.fold ≠ name.fold := by
  have htypes' : (regs'.map (·.depot.type)).Nodup := (hperm.map _).nodup_iff.2 htypes
  have hloaded : ∀ r ∈ regs', ∀ e ∈ r.loaded, e.1.strlen < 256 ∧
      e.1.fold ∈ regs.flatMap fun r => r.loaded.map (·.1.fold) := by
    intro r hr e he
    have hr := hperm.mem_iff.1 hr
    exact ⟨hshort r hr e he, mem_flatMap.2 ⟨r, hr, mem_map_of_mem he⟩⟩
  obtain ⟨t, hregister, h⟩ := loaded_init.registerAll halloc hroom regs' htypes' hloaded
  rw [nil_append] at h
  have howns : ∀ name value d, t.assigned name = some (value, d) ↔ Owns regs name value d := by
    intro name value d
    rw [h.reflects.assigned_eq, winner_eq_some_iff htypes']
    simp only [Owns, hperm.mem_iff]
  refine ⟨t, hregister, howns, ?_⟩
  intro name
  rw [h.reflects.find_none_iff, winner_eq_none_iff]
  simp only [hperm.mem_iff]

end

def twoLists : List Registration :=
  [⟨⟨1, cstring [102], .file, false⟩, true,
    [(cstring [97], cstring [49]), (cstring [98], cstring [50])]⟩,
   ⟨⟨2, cstring [101], .e2prom, false⟩, false,
    [(cstring [65], cstring [51]), (cstring [97], cstring [52])]⟩]

/-- The other order; `A` belongs to the E2PROM depot, with the later of its values. -/
theorem registerAll_owners_reversed : ∃ t,
    registerAll (fun _ => true) swParameterInit twoLists.reverse = some t ∧
    t.assigned (cstring [65]) = some (cstring [52], ⟨2, cstring [101], .e2prom, false⟩) := by
  obtain ⟨t, hregister, howns, -⟩ := registerAll_owners (fun _ => rfl) (reverse_perm twoLists)
    (by decide) (by decide) (by decide)
  refine ⟨t, hregister, (howns _ _ _).2 ?_⟩
  refine ⟨⟨⟨2, cstring [101], .e2prom, false⟩, false,
    [(cstring [65], cstring [51]), (cstring [97], cstring [52])]⟩,
    by simp [twoLists], rfl, by decide, ?_⟩
  intro r' _ _
  exact Nat.zero_le _

end SwApi.Parameter
