import SwApi.Library.Transition
import SwApi.Parameter.Order

/-! Every call keeps the table in order, as long as the pool does not run out
and a depot is registered before anything else is done. -/
namespace SwApi.Parameter
open Library SortedSearch Os List Option

/-- The call returns, with the table in order and the depots as they were. -/
def Returns (t : Table) (result : Option (Bool × Table)) : Prop :=
  ∃ r t', result = some (r, t') ∧ WellFormed t' ∧ t'.depots = t.depots ∧ t'.defdepot = t.defdepot

theorem Returns.same (h : WellFormed t) (r : Bool) : Returns t (some (r, t)) :=
  ⟨r, t, rfl, h, rfl, rfl⟩

theorem Returns.of_eq (h : Returns t result) (hresult : result = some (r, t')) :
    WellFormed t' ∧ t'.depots = t.depots ∧ t'.defdepot = t.defdepot := by
  obtain ⟨_, _, heq, h⟩ := h
  cases hresult.symm.trans heq
  exact h

theorem strdup_eq (halloc : ∀ k, alloc k = true) (t : Table) (s : CString) :
    swMemStrdup alloc t s = (some s, { t with allocs := t.allocs + 1 }) := by
  rw [swMemStrdup, if_pos (halloc _)]

structure SameParas (t t' : Table) : Prop where
  plist : t'.plist = t.plist
  pnum : t'.pnum = t.pnum
  depots : t'.depots = t.depots
  defdepot : t'.defdepot = t.defdepot

theorem SameParas.entries (h : SameParas t t') : t'.entries = t.entries := by
  rw [Table.entries, Table.entries, h.plist, h.pnum]

theorem SameParas.wellFormed (hs : SameParas t t') (h : WellFormed t) : WellFormed t' := by
  apply h.sublist
  rw [hs.entries]

theorem isJava_eq (h : depot = some d) : isJava depot = some (d.type == .java) := by
  rw [isJava, h]
  rfl

/-- A parameter of a file depot that is read-only and has a value. -/
structure Locked (p : Para) : Prop where
  readonly : p.readonly = true
  value : p.value ≠ none
  file : ∃ d, p.depot = some d ∧ d.type = .file

structure Retains (p p' : Para) : Prop where
  name : p'.name = p.name
  value : p'.value = p.value
  readonly : p'.readonly = p.readonly
  depot : p'.depot = p.depot

theorem Retains.refl (p : Para) : Retains p p := ⟨rfl, rfl, rfl, rfl⟩

theorem Retains.locked (h : Retains p p') (hp : Locked p) : Locked p' := by
  refine ⟨?_, ?_, ?_⟩
  · rw [h.readonly]
    exact hp.readonly
  · rw [h.value]
    exact hp.value
  · rw [h.depot]
    exact hp.file

theorem Retains.trans (h : Retains p p') (h' : Retains p' p'') : Retains p p'' :=
  ⟨h'.name.trans h.name, h'.value.trans h.value, h'.readonly.trans h.readonly,
    h'.depot.trans h.depot⟩

def Keeps (t t' : Table) : Prop :=
  ∀ p ∈ t.entries, Locked p → ∃ p' ∈ t'.entries, Retains p p'

theorem Keeps.of_subset (h : ∀ p ∈ t.entries, Locked p → p ∈ t'.entries) : Keeps t t' := by
  intro p hp hlocked
  exact ⟨p, h p hp hlocked, .refl p⟩

theorem Keeps.same (h : SameParas t t') : Keeps t t' := by
  apply Keeps.of_subset
  intro p hp _
  rw [h.entries]
  exact hp

theorem Keeps.refl (t : Table) : Keeps t t := .of_subset fun _ hp _ => hp

theorem Keeps.trans (h : Keeps t t') (h' : Keeps t' t'') : Keeps t t'' := by
  intro p hp hlocked
  obtain ⟨p', hp', hretains⟩ := h p hp hlocked
  obtain ⟨p'', hp'', hretains'⟩ := h' p' hp' (hretains.locked hlocked)
  exact ⟨p'', hp'', hretains.trans hretains'⟩

theorem Keeps.setPara (h : Locked (t.plist i) → Retains (t.plist i) p) :
    Keeps t (t.setPara i p) := by
  intro q hq hlocked
  obtain ⟨k, hk, rfl⟩ := mem_cells.1 hq
  have hmem : (t.setPara i p).plist k ∈ (t.setPara i p).entries := (t.setPara i p).mem_entries hk
  by_cases hki : k = i
  · subst hki
    have hslot : (t.setPara k p).plist k = p := Function.update_self ..
    rw [hslot] at hmem
    exact ⟨p, hmem, h hlocked⟩
  · have hslot : (t.setPara i p).plist k = t.plist k := Function.update_of_ne hki _ _
    rw [hslot] at hmem
    exact ⟨_, hmem, .refl _⟩

theorem Locked.writeProtected (h : Locked p) : writeProtected p = some true := by
  obtain ⟨d, hd, -⟩ := h.file
  obtain ⟨v, hv⟩ := ne_none_iff_exists'.1 h.value
  simp [Parameter.writeProtected, h.readonly, isJava_eq hd, hv]

/-- The call returns, and what is locked stays. -/
def Spared (t : Table) (result : Option (Bool × Table)) : Prop :=
  Returns t result ∧ ∀ r t', result = some (r, t') → Keeps t t'

theorem Spared.same (h : WellFormed t) (r : Bool) : Spared t (some (r, t)) := by
  refine ⟨.same h r, ?_⟩
  rintro _ _ ⟨⟩
  exact .refl t

theorem Spared.of_eq (hresult : result = some (r, t')) (h : WellFormed t')
    (hdepots : t'.depots = t.depots)
    (hdef : t'.defdepot = t.defdepot) (hkeeps : Keeps t t') : Spared t result := by
  subst hresult
  refine ⟨⟨r, t', rfl, h, hdepots, hdef⟩, ?_⟩
  rintro _ _ ⟨⟩
  exact hkeeps

theorem Spared.trans (hdepots : t'.depots = t.depots) (hdef : t'.defdepot = t.defdepot)
    (hkeeps : Keeps t t') (h : Spared t' result) : Spared t result := by
  obtain ⟨⟨r, t'', heq, hwf, hdepots', hdef'⟩, hkeeps'⟩ := h
  exact .of_eq heq hwf (hdepots'.trans hdepots) (hdef'.trans hdef)
    (hkeeps.trans (hkeeps' r t'' heq))

/-- A function that makes a value takes nothing but attempts of the pool. -/
def Attempts (t : Table) (result : Option CString × Table) : Prop :=
  ∃ v n, result = (v, { t with allocs := n })

theorem SameParas.attempts (t : Table) (n : Nat) : SameParas t { t with allocs := n } :=
  ⟨rfl, rfl, rfl, rfl⟩

theorem Attempts.same (h : Attempts t result) : SameParas t result.2 := by
  obtain ⟨v, n, rfl⟩ := h
  exact .attempts t n

theorem attempts_none (t : Table) (v : Option CString) : Attempts t (v, t) := ⟨v, t.allocs, rfl⟩

section
variable (alloc : Alloc) (t : Table)
include alloc t

theorem attempts_strdup (s : CString) :
    Attempts t (swMemStrdup alloc t s) := ⟨_, _, rfl⟩

theorem attempts_dupValue (value : Option CString) :
    Attempts t (dupValue alloc t value) := by
  cases value with
  | none => exact attempts_none t none
  | some value => exact attempts_strdup alloc t value

theorem attempts_storeValue (old : Option CString) (value : CString) :
    Attempts t (storeValue alloc t old value) := by
  unfold storeValue
  repeat' split
  all_goals exact ⟨_, _, rfl⟩

theorem attempts_keepReply (readonly : Bool) (text : CString) :
    Attempts t (keepReply alloc t readonly text) := by
  unfold keepReply
  repeat' split
  all_goals exact ⟨_, _, rfl⟩

end

theorem attempts_fillDefault {alloc : Alloc} {t : Table} {v : Option CString} {default : CString} :
    Attempts t (fillDefault alloc t v default) := by
  unfold fillDefault
  repeat' split
  all_goals exact ⟨_, _, rfl⟩

theorem attempts_keptValue (alloc : Alloc) (t : Table) (d : Depot) (v : Option CString)
    (default : CString) : Attempts t (keptValue alloc t d v default) := by
  unfold keptValue
  split
  · exact attempts_fillDefault
  · exact attempts_none t v

theorem attempts_movedValue (alloc : Alloc) (t : Table) (d : Depot) (v : Option CString)
    (default reply : CString) : Attempts t (movedValue alloc t d v default reply) := by
  unfold movedValue
  repeat' split
  all_goals first | exact ⟨_, _, rfl⟩ | exact attempts_fillDefault

theorem attempts_firstValue (alloc : Alloc) (t : Table) (d : Depot) (readonly : Bool)
    (default reply : CString) : Attempts t (firstValue alloc t d readonly default reply) := by
  unfold firstValue
  repeat' split
  all_goals exact ⟨_, _, rfl⟩

theorem touch_same (t : Table) (d : Depot) : ∃ t', t.touch (some d) = some t' ∧ SameParas t t' := by
  refine ⟨_, rfl, ?_⟩
  split <;> exact ⟨rfl, rfl, rfl, rfl⟩

theorem depot_or (depot : Option Depot) (d : Depot) : ∃ d', depot.or (some d) = some d' := by
  cases depot with
  | none => exact ⟨d, rfl⟩
  | some d' => exact ⟨d', rfl⟩

theorem Returns.setPara (h : WellFormed t) (hs : SameParas t t') (hi : i < t.pnum)
    (hname : p.name = (t.plist i).name) (hd : ∃ d, p.depot = some d) (r : Bool) :
    Returns t (some (r, t'.setPara i p)) := by
  have hi' : i < t'.pnum := by rw [hs.pnum]; exact hi
  have hname' : p.name = (t'.plist i).name := by rw [hs.plist]; exact hname
  exact ⟨r, _, rfl, (hs.wellFormed h).setPara hi' hname' hd, hs.depots, hs.defdepot⟩

theorem Spared.setPara (h : WellFormed t) (hs : SameParas t t') (hi : i < t.pnum)
    (hname : p.name = (t.plist i).name)
    (hd : ∃ d, p.depot = some d) (hlocked : Locked (t.plist i) → Retains (t.plist i) p) (r : Bool) :
    Spared t (some (r, t'.setPara i p)) := by
  refine ⟨.setPara h hs hi hname hd r, ?_⟩
  rintro _ _ ⟨⟩
  apply (Keeps.same hs).trans (.setPara _)
  rw [hs.plist]
  exact hlocked

theorem Spared.touch (h : Spared t (some (r', t'))) (d : Depot) (r : Bool) :
    Spared t ((t'.touch (some d)).bind fun t'' => some (r, t'')) := by
  obtain ⟨⟨_, _, heq, hwf, hdepots, hdef⟩, hkeeps⟩ := h
  cases heq
  obtain ⟨t'', ht, hs⟩ := touch_same t' d
  rw [ht]
  exact .of_eq rfl (hs.wellFormed hwf) (hs.depots.trans hdepots) (hs.defdepot.trans hdef)
    ((hkeeps _ _ rfl).trans (.same hs))

theorem WellFormed.setFound (h : WellFormed t) (hi : i < t.pnum) (value : Option CString)
    (depot : Option Depot) (isLoad onlyDefault : Bool) :
    Spared t (setFound alloc t i value depot isLoad onlyDefault) := by
  obtain ⟨own, hown⟩ := h.owned _ (t.mem_entries hi)
  cases value with
  | none => exact .same h false
  | some value =>
    obtain ⟨locked, hlocked⟩ : ∃ b, writeProtected (t.plist i) = some b := by
      unfold writeProtected isJava
      rw [hown]
      split <;> exact ⟨_, rfl⟩
    obtain ⟨lower, hlower⟩ : ∃ b, notRaised (t.plist i) depot = some b := by
      unfold notRaised
      rw [hown]
      repeat' split
      all_goals exact ⟨_, rfl⟩
    obtain ⟨java, hjava⟩ : ∃ b, handedOn (t.plist i) isLoad = some b := by
      unfold handedOn isJava
      rw [hown]
      split <;> exact ⟨_, rfl⟩
    obtain ⟨d, hd⟩ := depot_or depot own
    have hsame := (attempts_storeValue alloc t (t.plist i).value value).same
    simp only [Parameter.setFound, hlocked, hlower, hjava, hown, hd, bind_eq_bind,
      bind_some, isJava, map_some]
    split
    · exact .same h false
    · rename_i hopen
      have hkept (p : Para) (hp : Locked (t.plist i)) : Retains (t.plist i) p := by
        rw [hp.writeProtected] at hlocked
        exact absurd (some.inj hlocked).symm hopen
      split
      · exact .same h false
      · split
        · exact .same h false
        · split
          · exact .same h true
          · split
            · exact .same h true
            · split
              · exact .setPara h hsame hi (by rfl) ⟨d, rfl⟩ (hkept _) true
              · exact .touch (.setPara h hsame hi (by rfl) ⟨d, rfl⟩ (hkept _) true) d true

theorem Spared.append (h : WellFormed t) (hs : SameParas t t')
    (hnew : ∀ q ∈ t.entries, q.key ≠ name.fold) (hroom : t.pnum < maxParaNum)
    (hname : p.name = some name) (hd : ∃ d, p.depot = some d) (r : Bool) :
    Spared t ((t'.append p).bind fun t'' => some (r, t'')) := by
  obtain ⟨k, t'', happend, hwf, -, hentries, hdepots, hdef⟩ := (hs.wellFormed h).append hname hd
    (by rw [hs.entries]; exact hnew) (by rw [hs.pnum]; exact hroom)
  rw [happend]
  refine .of_eq rfl hwf (hdepots.trans hs.depots) (hdef.trans hs.defdepot)
    (.of_subset fun q hq _ => ?_)
  rw [hentries, mem_insert_iff, hs.entries]
  exact .inr hq

theorem SameParas.trans (h : SameParas t t') (h' : SameParas t' t'') : SameParas t t'' :=
  ⟨h'.plist.trans h.plist, h'.pnum.trans h.pnum, h'.depots.trans h.depots,
    h'.defdepot.trans h.defdepot⟩

theorem SameParas.touch (h : SameParas t t') (isLoad : Bool) (d : Depot) :
    ∃ t'', (if isLoad then some t' else t'.touch (some d)) = some t'' ∧ SameParas t t'' := by
  cases isLoad with
  | true => exact ⟨t', rfl, h⟩
  | false =>
    obtain ⟨t'', ht, hs⟩ := touch_same t' d
    exact ⟨t'', ht, h.trans hs⟩

theorem WellFormed.setNew (halloc : ∀ k, alloc k = true) (h : WellFormed t)
    (hdef : ∃ d, t.defdepot = some d) (hnew : ∀ q ∈ t.entries, q.key ≠ name.fold)
    (value : Option CString) (depot : Option Depot) (isLoad : Bool) :
    Spared t (setNew alloc t name value depot isLoad) := by
  unfold Parameter.setNew
  split
  · rename_i hroom
    obtain ⟨own, hown⟩ := hdef
    obtain ⟨d, hd⟩ := depot_or depot own
    let t₁ : Table := { t with allocs := t.allocs + 1 }
    have hs₁ : SameParas t t₁ := ⟨rfl, rfl, rfl, rfl⟩
    have hs₂ := hs₁.trans (attempts_dupValue alloc t₁ value).same
    generalize hdup : dupValue alloc t₁ value = r at hs₂
    obtain ⟨v, t₂⟩ := r
    obtain ⟨t₃, ht₃, hs₃⟩ := hs₂.touch isLoad d
    have hdef₂ : t₂.defdepot = some own := hs₂.defdepot.trans hown
    simp only [strdup_eq halloc, hdup, hdef₂, hd, ht₃, isJava, map_some, bind_eq_bind,
      bind_some, t₁]
    exact .append h hs₃ hnew hroom.1 rfl ⟨d, rfl⟩ true
  · exact .same h false

theorem WellFormed.setWithDepot (halloc : ∀ k, alloc k = true) (h : WellFormed t)
    (hdef : ∃ d, t.defdepot = some d) (name : CString) (value : Option CString)
    (depot : Option Depot) (isLoad onlyDefault : Bool) :
    Spared t (swParameterSetWithDepot alloc t name value depot isLoad onlyDefault) := by
  unfold swParameterSetWithDepot
  rcases h.find name with ⟨i, hfind, hi, -⟩ | ⟨hfind, hnew⟩
  · rw [hfind]
    exact h.setFound hi value depot isLoad onlyDefault
  · rw [hfind]
    exact h.setNew halloc hdef hnew value depot isLoad

theorem WellFormed.setAll (halloc : ∀ k, alloc k = true) (depot : Option Depot) (isLoad : Bool)
    (loaded : List (CString × Option CString)) (h : WellFormed t)
    (hdef : ∃ d, t.defdepot = some d) :
    ∃ t', setAll alloc depot isLoad t loaded = some t' ∧ WellFormed t' ∧ t'.defdepot = t.defdepot ∧
    Keeps t t' := by
  induction loaded generalizing t with
  | nil => exact ⟨t, rfl, h, rfl, .refl t⟩
  | cons pair rest ih =>
    obtain ⟨name, value⟩ := pair
    obtain ⟨⟨r, t₁, hset, h₁, -, hdef₁⟩, hkeeps₁⟩ :=
      h.setWithDepot halloc hdef name value depot isLoad false
    obtain ⟨t₂, hrest, h₂, hdef₂, hkeeps₂⟩ := ih h₁ (by rw [hdef₁]; exact hdef)
    refine ⟨t₂, ?_, h₂, hdef₂.trans hdef₁, (hkeeps₁ r t₁ hset).trans hkeeps₂⟩
    rw [Parameter.setAll, hset]
    exact hrest

theorem WellFormed.getAt (h : WellFormed t) (hi : i < t.pnum) (b : Buffer) (reply : Reply) :
    Spared t ((getAt alloc t i b reply).map fun r => (r.1, r.2.2)) := by
  obtain ⟨own, hown⟩ := h.owned _ (t.mem_entries hi)
  have hrefl : SameParas t t := ⟨rfl, rfl, rfl, rfl⟩
  simp only [Parameter.getAt, hown, isJava, map_some, bind_eq_bind, bind_some]
  split
  · rename_i hasked
    refine .setPara h hrefl hi (by rfl) ⟨own, rfl⟩ (fun hlocked => ?_) _
    simp [hlocked.readonly] at hasked
  · split
    · exact .same h true
    · rename_i hnone
      split
      · exact .setPara h (attempts_keepReply alloc t _ _).same hi (by rfl) ⟨own, rfl⟩
          (fun hlocked => absurd hnone hlocked.value) true
      · exact .same h true

section
variable {alloc : Alloc} (halloc : ∀ k, alloc k = true) (h : WellFormed t)
include halloc h

theorem WellFormed.get
    (hdef : ∃ d, t.defdepot = some d) (name : CString) (b : Buffer) (reply : Reply) :
    Spared t ((swParameterGet alloc t name b reply).map fun r => (r.1, r.2.2)) := by
  unfold swParameterGet
  rcases h.find name with ⟨i, hfind, hi, -⟩ | ⟨hfind, hnew⟩
  · rw [hfind]
    exact h.getAt hi b reply
  · obtain ⟨d, hd⟩ := hdef
    rw [hfind]
    simp only [isJava_eq hd, strdup_eq halloc, bind_eq_bind, bind_some]
    split
    · rename_i hjava
      have hroom : t.pnum < maxParaNum := by simp at hjava; exact hjava.2
      let t₁ : Table := { t with allocs := t.allocs + 1 }
      have hs₁ : SameParas t t₁ := ⟨rfl, rfl, rfl, rfl⟩
      obtain ⟨k, t₂, happend, h₂, -, hentries, hdepots, hdefdepot⟩ := (hs₁.wellFormed h).append
        (p := ⟨some name, none, false, true, t.defdepot⟩) rfl ⟨d, hd⟩ hnew hroom
      -- the name just inserted is found again
      have hfound : ∃ i, swParameterFind t₂ name = some (some i) ∧ i < t₂.pnum := by
        rcases h₂.find name with ⟨i, hi, hlt, -⟩ | ⟨-, hmissing⟩
        · exact ⟨i, hi, hlt⟩
        · refine absurd rfl (hmissing ⟨some name, none, false, true, t.defdepot⟩ ?_)
          rw [hentries, mem_insert_iff]
          exact .inl rfl
      obtain ⟨i, hi, hlt⟩ := hfound
      rw [happend]
      simp only [bind_some, hi]
      refine .trans hdepots hdefdepot (.of_subset fun q hq _ => ?_) (h₂.getAt hlt b reply)
      rw [hentries, mem_insert_iff]
      exact .inr hq
    · exact .same h false

theorem WellFormed.setRealtime
    (hdef : ∃ d, t.defdepot = some d) (name : CString) (realtime : Bool) :
    Spared t (swParameterSetRealtime alloc t name realtime) := by
  unfold swParameterSetRealtime
  have hrefl : SameParas t t := ⟨rfl, rfl, rfl, rfl⟩
  rcases h.find name with ⟨i, hfind, hi, -⟩ | ⟨hfind, hnew⟩
  · have hown := h.owned _ (t.mem_entries hi)
    rw [hfind]
    exact .setPara h hrefl hi (by rfl) (by exact hown) (by exact fun _ => ⟨rfl, rfl, rfl, rfl⟩) true
  · obtain ⟨d, hd⟩ := hdef
    rw [hfind]
    simp only [isJava_eq hd, strdup_eq halloc, bind_eq_bind, bind_some]
    split
    · rename_i hroom
      split
      · have hs : SameParas t { t with allocs := t.allocs + 1 } := ⟨rfl, rfl, rfl, rfl⟩
        exact .append h hs hnew hroom (by rfl) ⟨d, hd⟩ true
      · exact .same h false
    · exact .same h false

theorem WellFormed.updateWithDepot
    (name : CString) (defaultvalue : Option CString) (readonly realtime : Bool)
    (depot : Option Depot) (reply : CString) :
    Returns t (swParameterUpdateWithDepot alloc t name defaultvalue readonly realtime depot
    reply) := by
  unfold swParameterUpdateWithDepot
  split
  · rename_i default d
    split
    · exact .same h false
    · rcases h.find name with ⟨i, hfind, hi, -⟩ | ⟨hfind, hnew⟩
      · have hown := h.owned _ (t.mem_entries hi)
        simp only [hfind, bind_eq_bind, bind_some]
        split
        · exact .setPara h (attempts_keptValue alloc t d _ default).same hi (by rfl)
            (by exact hown) false
        · exact .setPara h (attempts_movedValue alloc t d _ default reply).same hi (by rfl)
            ⟨d, rfl⟩ true
      · simp only [hfind, strdup_eq halloc, bind_eq_bind, bind_some]
        split
        · rename_i hroom
          let t₁ : Table := { t with allocs := t.allocs + 1 }
          have hs₁ : SameParas t t₁ := ⟨rfl, rfl, rfl, rfl⟩
          have hs₂ := hs₁.trans (attempts_firstValue alloc t₁ d readonly default reply).same
          exact (Spared.append h hs₂ hnew hroom.1 rfl ⟨d, rfl⟩ false).1
        · exact .same h false
  · exact .same h false

end

theorem cells_delete (plist : Nat → Para) (hi : i < n) :
    cells (if i + 1 < n then memmove plist i (i + 1) (n - i - 1) else plist) (n - 1) =
      (cells plist n).eraseIdx i := by
  rw [← cells_remove plist hi]
  split
  · rfl
  · rw [show n - i - 1 = 0 by omega, memmove_zero]

theorem WellFormed.delete (h : WellFormed t) (name : CString) :
    Spared t (swParameterDelete t name) := by
  unfold swParameterDelete
  rcases h.find name with ⟨i, hfind, hi, -⟩ | ⟨hfind, -⟩
  · obtain ⟨d, hd⟩ := h.owned _ (t.mem_entries hi)
    simp only [hfind, hd, bind_eq_bind, bind_some]
    split
    · exact .same h false
    · split
      · exact .same h false
      · rename_i hopen _
        refine .of_eq rfl (h.sublist ?_) rfl rfl (.of_subset fun q hq hlocked => ?_)
        · rw [Table.entries, cells_delete t.plist hi]
          exact eraseIdx_sublist ..
        · rw [Table.entries, cells_delete t.plist hi, mem_eraseIdx_iff_getElem]
          obtain ⟨k, hk, rfl⟩ := mem_cells.1 hq
          have hki : k ≠ i := by
            rintro rfl
            exact hopen hlocked.readonly
          exact ⟨k, by simpa using hk, hki, cells_getElem ..⟩
  · rw [hfind]
    exact .same h false

theorem keepLoop_eq : keepLoop keep left i j plist = compact keep Para.zero left i j plist := by
  induction left generalizing i j plist with
  | zero => rfl
  | succ left ih =>
    rw [keepLoop, compact]
    split <;> exact ih ..

theorem deleteAll_eq (hd : t.defdepot = some d) : ∃ t', swParameterDeleteAll t = some t' ∧
      t'.entries = t.entries.filter (fun p => p.readonly || p.depot != some d) ∧
      t'.depots = t.depots ∧ t'.defdepot = t.defdepot ∧
      t'.modified = Function.update t.modified d true ∧ t'.saveauto = t.saveauto ∧
      t'.signal = t.signal := by
  have hkept := cells_compact (fun p => p.readonly || p.depot != t.defdepot) Para.zero t.pnum 0 0
    t.plist le_rfl
  rw [← keepLoop_eq] at hkept
  simp only [swParameterDeleteAll, hd, bind_eq_bind, bind_some] at hkept ⊢
  refine ⟨_, rfl, ?_, rfl, rfl, rfl, rfl, rfl⟩
  rw [Table.entries, hkept]
  simp only [cells, range_zero, map_nil, nil_append, Nat.zero_add]
  rfl

theorem WellFormed.deleteAll (h : WellFormed t) (hdef : ∃ d, t.defdepot = some d) :
    Spared t ((swParameterDeleteAll t).map fun t => (true, t)) := by
  obtain ⟨d, hd⟩ := hdef
  obtain ⟨t', heq, hentries, hdepots, hdefdepot, -⟩ := deleteAll_eq hd
  rw [heq]
  refine .of_eq rfl (h.sublist ?_) hdepots hdefdepot (.of_subset fun q hq hlocked => ?_)
  · rw [hentries]
    exact filter_sublist
  · rw [hentries, mem_filter]
    exact ⟨hq, by simp [hlocked.readonly]⟩

def Started (t : Table) : Op → Prop
  | .register _ _ _ => True
  | _ => t.depots ≠ []

instance (t : Table) (op : Op) : Decidable (Started t op) := by
  unfold Started
  split <;> infer_instance

structure Ready (t : Table) : Prop where
  wellFormed : WellFormed t
  hasDefault : t.depots ≠ [] → ∃ d, t.defdepot = some d

theorem Returns.ready (h : Returns t result) (hr : Ready t) : ∃ r t', result = some (r, t') ∧
    Ready t' := by
  obtain ⟨r, t', heq, hwf, hdepots, hdef⟩ := h
  refine ⟨r, t', heq, hwf, ?_⟩
  rw [hdepots, hdef]
  exact hr.hasDefault

theorem ready_init : Ready swParameterInit := by
  refine ⟨⟨by decide, ?_, ?_, List.Pairwise.nil⟩, fun h => absurd rfl h⟩
  all_goals
    intro p hp
    cases hp

theorem WellFormed.register (halloc : ∀ k, alloc k = true) (h : WellFormed t) (d : Depot)
    (isdefault : Bool) (loaded : List (CString × Option CString)) :
    ∃ r t', swParameterRegisterDepot alloc t d isdefault loaded = some (r, t') ∧ WellFormed t' ∧
      Keeps t t' ∧ (t' = t ∨ ∃ d, t'.defdepot = some d) := by
  unfold swParameterRegisterDepot
  split
  · exact ⟨true, t, rfl, h, .refl t, .inl rfl⟩
  · split
    · exact ⟨false, t, rfl, h, .refl t, .inl rfl⟩
    · generalize hdefault : (if isdefault || t.defdepot == none then some d else t.defdepot) =
        defdepot
      have hdef : ∃ d, defdepot = some d := by
        subst hdefault
        split
        · exact ⟨d, rfl⟩
        · rename_i hset
          cases hold : t.defdepot with
          | none => simp [hold] at hset
          | some d' => exact ⟨d', rfl⟩
      let t₁ : Table := { t with depots := t.depots ++ [d], defdepot }
      have h₁ : WellFormed t₁ := h.sublist (Sublist.refl t.entries)
      obtain ⟨t₂, hspread, h₂, hdef₂, hkeeps⟩ := h₁.setAll halloc (some d) true loaded hdef
      refine ⟨true, t₂, ?_, h₂, hkeeps, .inr (hdef₂ ▸ hdef)⟩
      simp only [t₁] at hspread
      simp [spreadAll, hspread]

theorem Ready.register (halloc : ∀ k, alloc k = true) (h : Ready t) (d : Depot) (isdefault : Bool)
    (loaded : List (CString × Option CString)) :
    ∃ r t', swParameterRegisterDepot alloc t d isdefault loaded = some (r, t') ∧ Ready t' := by
  obtain ⟨r, t', heq, hwf, -, rfl | hdef⟩ := h.wellFormed.register halloc d isdefault loaded
  · exact ⟨r, _, heq, h⟩
  · exact ⟨r, t', heq, hwf, fun _ => hdef⟩

theorem Ready.perform (halloc : ∀ k, alloc k = true) (h : Ready t) (hop : Started t op) :
    ∃ r t', perform alloc t op = some (r, t') ∧ Ready t' := by
  cases op with
  | register d isdefault loaded => exact h.register halloc d isdefault loaded
  | set name value =>
    exact (h.wellFormed.setWithDepot halloc (h.hasDefault hop) name value none false false).1.ready
      h
  | add name value depotname =>
    simp only [Parameter.perform, swParameterAdd]
    split
    · exact (Returns.same h.wellFormed false).ready h
    · rename_i d _
      obtain ⟨⟨r, t', heq, hwf, hdepots, hdef⟩, -⟩ :=
        h.wellFormed.setWithDepot halloc (h.hasDefault hop) name value (some d) false false
      rw [heq]
      exact Returns.ready ⟨true, t', rfl, hwf, hdepots, hdef⟩ h
  | setDefault name value depot =>
    exact (h.wellFormed.setWithDepot halloc (h.hasDefault hop) name value depot true true).1.ready h
  | updateWithDepot name defaultvalue readonly realtime depot reply =>
    exact (h.wellFormed.updateWithDepot halloc name defaultvalue readonly realtime depot
      reply).ready h
  | setRealtime name realtime =>
    exact (h.wellFormed.setRealtime halloc (h.hasDefault hop) name realtime).1.ready h
  | get name b reply => exact (h.wellFormed.get halloc (h.hasDefault hop) name b reply).1.ready h
  | delete name => exact (h.wellFormed.delete name).1.ready h
  | deleteAll => exact (h.wellFormed.deleteAll (h.hasDefault hop)).1.ready h

structure InOrder (t : Table) : Prop where
  bound : t.pnum ≤ maxParaNum
  named : ∀ i, i < t.pnum → ∃ a, (t.plist i).name = some a
  increasing : ∀ i j a b, i < j → j < t.pnum → (t.plist i).name = some a →
    (t.plist j).name = some b → CString.strcasecmp a b < 0
  find : ∀ name,
    (∃ i a, swParameterFind t name = some (some i) ∧ i < t.pnum ∧ (t.plist i).name = some a ∧
      CString.strcasecmp a name = 0) ∨
    (swParameterFind t name = some none ∧
      ∀ i a, i < t.pnum → (t.plist i).name = some a → CString.strcasecmp a name ≠ 0)

theorem key_of_name {p : Para} (h : p.name = some a) : p.key = a.fold := by
  rw [Para.key, h]
  rfl

theorem WellFormed.inOrder (h : WellFormed t) : InOrder t := by
  refine ⟨h.bound, fun i hi => h.named _ (t.mem_entries hi), ?_, ?_⟩
  · intro i j a b hij hj ha hb
    apply CString.strcasecmp_neg_iff.2
    rw [← key_of_name ha, ← key_of_name hb]
    exact h.key_lt hij hj
  · intro name
    rcases h.find name with ⟨i, hfind, hi, hkey⟩ | ⟨hfind, hnew⟩
    · obtain ⟨a, ha⟩ := h.named _ (t.mem_entries hi)
      refine .inl ⟨i, a, hfind, hi, ha, CString.strcasecmp_eq_zero_iff.2 ?_⟩
      rw [← key_of_name ha, hkey]
    · refine .inr ⟨hfind, ?_⟩
      intro i a hi ha heq
      apply hnew _ (t.mem_entries hi)
      rw [key_of_name ha]
      exact CString.strcasecmp_eq_zero_iff.1 heq

/-- After every sequence of calls that starts with the registration of a depot
the table is in order, and the next call returns. -/
theorem run_inOrder (halloc : ∀ k, alloc k = true)
    (hrun : Run (perform alloc) Started swParameterInit history t) :
    InOrder t ∧ ∀ op, Started t op → (perform alloc t op).isSome := by
  have hready : Ready t := by
    apply Run.invariant (fun _ t => Ready t) ready_init _ hrun
    · intro history t op r t' h hop hstep
      obtain ⟨r', t'', heq, h'⟩ := h.perform halloc hop
      cases some.inj (hstep.symm.trans heq)
      exact h'
  refine ⟨hready.wellFormed.inOrder, ?_⟩
  intro op hop
  obtain ⟨r, t', heq, -⟩ := hready.perform halloc hop
  rw [heq]
  rfl

/-- Names that come in any order and case, an insertion by a lookup, and both deletions. -/
theorem run_inOrder_java : ∃ (history : List (Op × Bool)) (t : Table),
    exec (perform fun _ => true) Started swParameterInit
      [.register ⟨1, ⟨[106], by decide⟩, .java, false⟩ true [(⟨[98], by decide⟩, none)],
       .register ⟨2, ⟨[102], by decide⟩, .file, true⟩ false
         [(⟨[99], by decide⟩, some ⟨[49], by decide⟩), (⟨[66], by decide⟩, none)],
       .get ⟨[65], by decide⟩ ⟨true, 16⟩ ⟨true, ⟨[50], by decide⟩⟩,
       .add ⟨[67, 67], by decide⟩ (some ⟨[51], by decide⟩) (some ⟨[70], by decide⟩),
       .delete ⟨[67], by decide⟩, .deleteAll] = some (history, t) ∧ InOrder t := by
  refine exists_exec (fun _ _ => True) (by decide +kernel) ?_
  intro history t he _
  exact (run_inOrder (fun _ => rfl) (.of_exec he)).1

end SwApi.Parameter
