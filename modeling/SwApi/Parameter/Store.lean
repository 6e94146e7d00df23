import SwApi.Library.SortedMap
import SwApi.Parameter.Invariant

/-! What a table is for: a finite map from names, without regard to case, to values. -/
namespace SwApi.Parameter
open Library List Option

abbrev ParamMap := SortedMap CString.fold CString

/-- Room for a new name: the array has an end, and names are short. -/
def ParamMap.accept (m : ParamMap) (name : CString) : Bool :=
  m.entries.length < maxParaNum && name.strlen < 256

def Table.pairs (t : Table) : List (Option CString × Option CString) :=
  t.entries.map fun p => (p.name, p.value)

def ParamMap.pairs (m : ParamMap) : List (Option CString × Option CString) :=
  m.entries.map fun e => (some e.1, some e.2)

/-- The table is in order, has `d` as its only depot and contains the map `m`. -/
structure Holds (d : Depot) (t : Table) (m : ParamMap) : Prop where
  wellFormed : WellFormed t
  default : t.defdepot = some d
  pairs : t.pairs = m.pairs
  owned : ∀ p ∈ t.entries, p.depot = some d
  writable : ∀ p ∈ t.entries, p.readonly = false

section
variable {m : ParamMap} {name : CString}

theorem ParamMap.pairs_injective (h : m.pairs = m'.pairs) : m = m' := by
  apply SortedMap.ext_entries
  refine map_injective_iff.2 ?_ h
  intro e e' he
  simpa [Prod.ext_iff] using he

section
variable (h : Holds d t m)
include h

theorem Holds.length : m.entries.length = t.pnum := by
  have hlen := congrArg List.length h.pairs
  simpa [Table.pairs, ParamMap.pairs] using hlen.symm

theorem Holds.getElem? (hi : i < t.pnum) :
    ∃ e, m.entries[i]? = some e ∧ (t.plist i).name = some e.1 ∧ (t.plist i).value = some e.2 := by
  have hpair : m.pairs[i]? = some ((t.plist i).name, (t.plist i).value) := by
    rw [← h.pairs, Table.pairs, getElem?_map, t.entries_getElem? hi]
    rfl
  rw [ParamMap.pairs, getElem?_map, map_eq_some_iff] at hpair
  obtain ⟨e, he, heq⟩ := hpair
  exact ⟨e, he, (congrArg Prod.fst heq).symm, (congrArg Prod.snd heq).symm⟩

theorem Holds.lookup_eq_none_iff :
    m.lookup name.fold = none ↔ ∀ p ∈ t.entries, p.key ≠ name.fold := by
  have hkeys : t.entries.map Para.key = m.entries.map fun e => e.1.fold := by
    have hmap := congrArg (List.map fun e : Option CString × Option CString =>
      (e.1.getD .empty).fold) h.pairs
    rw [Table.pairs, ParamMap.pairs, List.map_map, List.map_map] at hmap
    exact hmap
  rw [SortedMap.lookup_eq_none_iff]
  constructor
  · intro hm p hp
    obtain ⟨e, he, hk⟩ := mem_map.1 (hkeys ▸ mem_map_of_mem hp)
    rw [← hk]
    exact hm e he
  · intro ht e he
    obtain ⟨p, hp, hk⟩ := mem_map.1 (hkeys.symm ▸ mem_map_of_mem he)
    rw [← hk]
    exact ht p hp

theorem Holds.of_pairs (hwf : WellFormed t')
    (hdef : t'.defdepot = t.defdepot) (hpairs : t'.pairs = m'.pairs)
    (hparas : ∀ p ∈ t'.entries, p ∈ t.entries ∨ p.depot = some d ∧ p.readonly = false) :
    Holds d t' m' := by
  refine ⟨hwf, hdef.trans h.default, hpairs, ?_, ?_⟩
  · intro p hp
    rcases hparas p hp with hold | hnew
    · exact h.owned p hold
    · exact hnew.1
  · intro p hp
    rcases hparas p hp with hold | hnew
    · exact h.writable p hold
    · exact hnew.2

theorem Holds.same (hs : SameParas t t') : Holds d t' m := by
  refine h.of_pairs (hs.wellFormed h.wellFormed) hs.defdepot ?_ ?_
  · rw [Table.pairs, hs.entries]
    exact h.pairs
  · intro p hp
    rw [hs.entries] at hp
    exact .inl hp

theorem Holds.setPara (hi : i < t.pnum) (hkey : (t.plist i).key = name.fold)
    (hname : p.name = (t.plist i).name) (hvalue : p.value = some value)
    (hdepot : p.depot = some d) (hreadonly : p.readonly = false) :
    Holds d (t.setPara i p) (m.replace name value) := by
  obtain ⟨e, he, hn, -⟩ := h.getElem? hi
  have hk : e.1.fold = name.fold := by rw [← hkey, key_of_name hn]
  refine h.of_pairs (h.wellFormed.setPara hi hname ⟨d, hdepot⟩) rfl ?_ ?_
  · have hpair : (p.name, p.value) = (some e.1, some value) := by rw [hname, hn, hvalue]
    calc (t.setPara i p).pairs
        = t.pairs.set i (some e.1, some value) := by
          rw [Table.pairs, Table.entries_setPara, map_set, hpair]
          rfl
      _ = ParamMap.pairs (m.replace name value) := by
          rw [h.pairs, ParamMap.pairs, ParamMap.pairs, SortedMap.replace_eq he hk, map_set]
  · exact Table.forall_setPara (fun q hq => .inl hq) (.inr ⟨hdepot, hreadonly⟩)

theorem Holds.replace_self (hi : i < t.pnum) (hkey : (t.plist i).key = name.fold)
    (hvalue : (t.plist i).value = some value) : m.replace name value = m := by
  obtain ⟨e, he, hn, hv⟩ := h.getElem? hi
  have hk : e.1.fold = name.fold := by rw [← hkey, key_of_name hn]
  have hsame : e.2 = value := some.inj (hv.symm.trans hvalue)
  apply SortedMap.ext_entries
  rw [SortedMap.replace_eq he hk, ← hsame]
  exact set_eq_self he

theorem Holds.append (hnew : m.lookup name.fold = none)
    (hroom : t.pnum < maxParaNum) (hname : p.name = some name)
    (hvalue : p.value = some value) (hdepot : p.depot = some d) (hreadonly : p.readonly = false) :
    ∃ t', t.append p = some t' ∧ Holds d t' (m.insert name value hnew) := by
  obtain ⟨k, t', happend, hwf, hk, hentries, -, hdef⟩ := h.wellFormed.append hname ⟨d, hdepot⟩
    (h.lookup_eq_none_iff.1 hnew) hroom
  have hpairs : t'.pairs =
      (m.entries.take k ++ (name, value) :: m.entries.drop k).map fun e =>
        (some e.1, some e.2) := by
    have htake := congrArg (List.take k) h.pairs
    have hdrop := congrArg (List.drop k) h.pairs
    rw [Table.pairs, ParamMap.pairs, ← map_take, ← map_take] at htake
    rw [Table.pairs, ParamMap.pairs, ← map_drop, ← map_drop] at hdrop
    rw [Table.pairs, hentries, map_append, map_append, map_cons, map_cons,
      htake, hdrop, hname, hvalue]
  have hsorted : (m.entries.take k ++ (name, value) :: m.entries.drop k).Pairwise
      fun e e' => e.1.fold < e'.1.fold := by
    have hkeys := congrArg (List.map fun e : Option CString × Option CString =>
      (e.1.getD .empty).fold) hpairs
    rw [Table.pairs, List.map_map, List.map_map] at hkeys
    have hinc : (List.map (fun e : CString × CString => e.1.fold)
        (m.entries.take k ++ (name, value) :: m.entries.drop k)).Pairwise (· < ·) := by
      have := hwf.increasing
      exact hkeys ▸ this
    exact pairwise_map.1 hinc
  refine ⟨t', happend, h.of_pairs hwf hdef ?_ ?_⟩
  · rw [hpairs, ParamMap.pairs, SortedMap.insert_eq k hsorted]
  · simp only [hentries, mem_insert_iff, forall_eq_or_imp]
    exact ⟨.inr ⟨hdepot, hreadonly⟩, fun q hq => .inl hq⟩

end

theorem storeValue_eq (halloc : ∀ k, alloc k = true) (t : Table) (old : Option CString)
    (value : CString) : (storeValue alloc t old value).1 = some value := by
  unfold storeValue
  split
  · rw [strdup_eq halloc]
  · split
    · rename_i h
      rw [h]
    · split
      · rfl
      · rw [strdup_eq halloc]

section
variable {alloc : Alloc} {d : Depot} (halloc : ∀ k, alloc k = true) (hfile : d.type = .file)
    (h : Holds d t m)
include halloc hfile h

theorem Holds.setFound
    (hi : i < t.pnum) (hkey : (t.plist i).key = name.fold)
    (hdepot : depot = none ∨ depot = some d) (isLoad : Bool) :
    ∃ r t', setFound alloc t i (some value) depot isLoad false = some (r, t') ∧
      Holds d t' (m.replace name value) := by
  have hown := h.owned _ (t.mem_entries hi)
  have hopen := h.writable _ (t.mem_entries hi)
  have hjava : isJava (some d) = some false := by rw [isJava_eq rfl, hfile]; rfl
  have hlocked : writeProtected (t.plist i) = some false := by rw [writeProtected, hopen]; rfl
  have hlower : notRaised (t.plist i) depot = some false := by
    rcases hdepot with rfl | rfl
    · rfl
    · rw [notRaised, if_pos hown]
  have hhanded : handedOn (t.plist i) isLoad = some false := by
    rw [handedOn, hown, hjava]
    cases isLoad <;> rfl
  have hsame : (depot == none || depot == (t.plist i).depot) = true := by
    rw [hown]
    rcases hdepot with rfl | rfl <;> simp
  have hor : depot.or (t.plist i).depot = some d := by
    rw [hown]
    rcases hdepot with rfl | rfl <;> rfl
  simp only [Parameter.setFound, hlocked, hlower, hhanded, hsame, hor, hjava, bind_eq_bind,
    bind_some, Bool.false_and, Bool.and_true, Bool.false_or, Bool.false_eq_true, if_false]
  split
  · rename_i hvalue
    refine ⟨true, t, rfl, ?_⟩
    rw [h.replace_self hi hkey (by simpa using hvalue)]
    exact h
  · have hs := (attempts_storeValue alloc t (t.plist i).value value).same
    have hv := storeValue_eq halloc t (t.plist i).value value
    generalize storeValue alloc t (t.plist i).value value = r at hs hv
    obtain ⟨v, t₁⟩ := r
    have h₁ := h.same hs
    have hi₁ : i < t₁.pnum := by rw [hs.pnum]; exact hi
    have hplist : t₁.plist i = t.plist i := congrFun hs.plist i
    have hkey₁ : (t₁.plist i).key = name.fold := by rw [hplist]; exact hkey
    have hset : Holds d (t₁.setPara i { t.plist i with value := v, depot := some d })
        (m.replace name value) := by
      refine h₁.setPara hi₁ hkey₁ ?_ hv rfl hopen
      rw [hplist]
    split
    · exact ⟨true, _, rfl, hset⟩
    · obtain ⟨t₂, htouch, hs₂⟩ :=
        touch_same (t₁.setPara i { t.plist i with value := v, depot := some d }) d
      refine ⟨true, t₂, ?_, hset.same hs₂⟩
      rw [htouch]
      rfl

theorem Holds.setNew
    (hnew : m.lookup name.fold = none) (hdepot : depot = none ∨ depot = some d) (isLoad : Bool) :
    ∃ r t', setNew alloc t name (some value) depot isLoad = some (r, t') ∧
      Holds d t' (if ParamMap.accept m name then m.insert name value hnew else m) := by
  unfold Parameter.setNew
  split
  · rename_i hroom
    have haccept : ParamMap.accept m name = true := by
      rw [ParamMap.accept, h.length]
      simpa using hroom
    have hor : depot.or t.defdepot = some d := by
      rw [h.default]
      rcases hdepot with rfl | rfl <;> rfl
    have hjava : isJava (some d) = some false := by rw [isJava_eq rfl, hfile]; rfl
    let t₁ : Table := { t with allocs := t.allocs + 1 + 1 }
    have hs₁ : SameParas t t₁ := ⟨rfl, rfl, rfl, rfl⟩
    obtain ⟨t₂, ht₂, hs₂⟩ := hs₁.touch isLoad d
    obtain ⟨t₃, happend, h₃⟩ := (h.same hs₂).append
      (p := ⟨some name, some value, false, false || (t₂.plist t₂.pnum).realtime, some d⟩)
      hnew (by rw [hs₂.pnum]; exact hroom.1) rfl rfl rfl rfl
    refine ⟨true, t₃, ?_, ?_⟩
    · simp only [t₁] at ht₂
      simp only [strdup_eq halloc, dupValue, hor, ht₂, hjava, bind_eq_bind, bind_some,
        happend]
    · rw [if_pos haccept]
      exact h₃
  · rename_i hroom
    have hrefused : ¬ParamMap.accept m name = true := by
      rw [ParamMap.accept, h.length]
      simpa using hroom
    refine ⟨false, t, rfl, ?_⟩
    rw [if_neg hrefused]
    exact h

theorem Holds.setWithDepot (name value : CString) (hdepot : depot = none ∨ depot = some d)
    (isLoad : Bool) :
    ∃ r t', swParameterSetWithDepot alloc t name (some value) depot isLoad false = some (r, t') ∧
      Holds d t' (m.offer ParamMap.accept (name, value)) := by
  unfold swParameterSetWithDepot
  rcases h.wellFormed.find name with ⟨i, hfind, hi, hkey⟩ | ⟨hfind, hmissing⟩
  · have hold : m.lookup name.fold ≠ none := by
      rw [Ne, h.lookup_eq_none_iff]
      intro hmissing
      exact hmissing _ (t.mem_entries hi) hkey
    have hoffer : m.offer ParamMap.accept (name, value) = m.replace name value := by
      rw [SortedMap.offer, if_pos (.inl hold), SortedMap.put, dif_neg hold]
    rw [hfind, hoffer]
    exact h.setFound halloc hfile hi hkey hdepot isLoad
  · have hnew := h.lookup_eq_none_iff.2 hmissing
    have hoffer : m.offer ParamMap.accept (name, value) =
        if ParamMap.accept m name then m.insert name value hnew else m := by
      simp [SortedMap.offer, hnew, SortedMap.put]
    rw [hfind, hoffer]
    exact h.setNew halloc hfile hnew hdepot isLoad

end

end

theorem Holds.spreadAll (halloc : ∀ k, alloc k = true) (hfile : d.type = .file)
    (pairs : List (CString × CString)) (h : Holds d t m) :
    ∃ t', spreadAll alloc d t (pairs.map fun e => (e.1, some e.2)) = some t' ∧
      Holds d t' (m.offerAll ParamMap.accept pairs) := by
  induction pairs generalizing t m with
  | nil => exact ⟨t, rfl, h⟩
  | cons e rest ih =>
    obtain ⟨r, t₁, hset, h₁⟩ := h.setWithDepot halloc hfile e.1 e.2 (.inr rfl) true
    obtain ⟨t₂, hrest, h₂⟩ := ih h₁
    refine ⟨t₂, ?_, h₂⟩
    rw [map_cons, Parameter.spreadAll, setAll, hset]
    exact hrest

theorem register_holds (halloc : ∀ k, alloc k = true) (hfile : d.type = .file)
    (pairs : List (CString × CString)) : ∃ t, swParameterRegisterDepot alloc swParameterInit d true
        (pairs.map fun e => (e.1, some e.2)) = some (true, t) ∧
      Holds d t (SortedMap.empty.offerAll ParamMap.accept pairs) := by
  have hstart : Holds d { swParameterInit with depots := [d], defdepot := some d }
      SortedMap.empty := by
    refine ⟨ready_init.wellFormed.sublist (Sublist.refl _), rfl, rfl, ?_, ?_⟩
    all_goals
      intro p hp
      cases hp
  obtain ⟨t, hspread, ht⟩ := hstart.spreadAll halloc hfile pairs
  refine ⟨t, ?_, ht⟩
  have hunknown : d ∉ swParameterInit.depots := not_mem_nil
  have hroom : ¬maxDepotNum ≤ swParameterInit.depots.length := by decide
  rw [swParameterRegisterDepot, if_neg hunknown, if_neg hroom]
  exact congrArg (fun r => r.bind fun t => some (true, t)) hspread

end SwApi.Parameter
